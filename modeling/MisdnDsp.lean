import MisdnDsp.Cmx.Ring
import MisdnDsp.Cmx.State
import MisdnDsp.Cmx.Reconfigure
import MisdnDsp.Cmx.Receive
import MisdnDsp.Cmx.Send
import MisdnDsp.Cmx.System
import MisdnDsp.Cmx.TxQueue
import MisdnDsp.Cmx.Hardware
import MisdnDsp.Cmx.Edit
import MisdnDsp.Cmx.Largest
import MisdnDsp.Cmx.Flow
import MisdnDsp.Cmx.Membership
import MisdnDsp.Cmx.Paths
import MisdnDsp.Cmx.Links
import MisdnDsp.Cmx.MemberMap
import MisdnDsp.Cmx.Units
import MisdnDsp.Cmx.Relay
import MisdnDsp.Cmx.Mixing
import MisdnDsp.Cmx.Crossconnect
import MisdnDsp.Cmx.Call
import MisdnDsp.Cmx.Isolation
import MisdnDsp.Dtmf.Decode
import MisdnDsp.Dtmf.Decision
import MisdnDsp.Dtmf.Goertzel
import MisdnDsp.Dtmf.Hysteresis
import MisdnDsp.Dtmf.Stream
import MisdnDsp.Dtmf.Coefficients
import MisdnDsp.Dtmf.Digits
