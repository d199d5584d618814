import Firebuild.Attribution
import Firebuild.Canonical
import Firebuild.CloseRange
import Firebuild.CommandRewriter
import Firebuild.ConcurrentWriters
import Firebuild.DirOutputs
import Firebuild.ExecRendezvous
import Firebuild.Fbb
import Firebuild.Framing
import Firebuild.HashCache
import Firebuild.Hashing
import Firebuild.InheritedFiles
import Firebuild.Locations
import Firebuild.ObjFiles
import Firebuild.Opening
import Firebuild.Parsers
import Firebuild.PipeHandshake
import Firebuild.ProgramOrder
import Firebuild.Recording
import Firebuild.References
import Firebuild.Representation
import Firebuild.RoundTrip
import Firebuild.Shortcut
import Firebuild.Signals
import Firebuild.SpawnActions
import Firebuild.StorageForms
import Firebuild.Writev
