import Drone.Core
import Drone.Queue.Match
import Drone.Queue.Filters
import Drone.Queue.Machine
import Drone.Queue.Interleavings
import Drone.Queue.Delivery
import Drone.Queue.Pass
import Drone.Manager.Accept
import Drone.Manager.Linearize
import Drone.Manager.Cancel
import Drone.Manager.Clients
import Drone.System.Model
import Drone.System.Lifecycle
import Drone.System.Dispatch
import Drone.System.Limits
import Drone.System.Branch
import Drone.System.Clock
import Drone.System.Settled
import Drone.Yaml.Manifest
import Drone.Yaml.Compiler
