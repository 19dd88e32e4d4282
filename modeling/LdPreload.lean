import LdPreload.Contract.Confinement
import LdPreload.Contract.Coverage
import LdPreload.Contract.Siblings
import LdPreload.Contract.Repeat
import LdPreload.Contract.Shadow
import LdPreload.Contract.VirtualCwd
import LdPreload.Contract.TwoPath
import LdPreload.Contract.EmptyPath
import LdPreload.Contract.Configuration
import LdPreload.Contract.CwdBuffer
import LdPreload.Contract.Canonical
import LdPreload.Contract.Bases
import LdPreload.Contract.Bounds
import LdPreload.Contract.Climb
import LdPreload.Contract.Dispatch
import LdPreload.Contract.Anchor
import LdPreload.Contract.Inverse
import LdPreload.Contract.Threads
import LdPreload.Contract.Illusion
import LdPreload.Contract.Race
import LdPreload.Contract.Atomic
import LdPreload.Contract.Linear
