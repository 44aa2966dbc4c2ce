import Corepkgs.Builder.Vcxproj
import Corepkgs.CrtInterp.Load
import Corepkgs.Jig.Base
import Corepkgs.Jig.Canonical
import Corepkgs.Jig.CcMode
import Corepkgs.Jig.Daemon
import Corepkgs.Jig.Depfile
import Corepkgs.Jig.Digest
import Corepkgs.Jig.DirMode
import Corepkgs.Jig.ElfFixup
import Corepkgs.Jig.ElfImage
import Corepkgs.Jig.ElfWrites
import Corepkgs.Jig.FixupPaths
import Corepkgs.Jig.FixupTwice
import Corepkgs.Jig.GoTorn
import Corepkgs.Jig.InStep
import Corepkgs.Jig.MachoSign
import Corepkgs.Jig.MacroKeys
import Corepkgs.Jig.Manifest
import Corepkgs.Jig.Paths
import Corepkgs.Jig.Rebuild
import Corepkgs.Jig.Replay
import Corepkgs.Jig.RequestKey
import Corepkgs.Jig.RunpathSlack
import Corepkgs.Jig.RustcMode
import Corepkgs.Jig.Store
import Corepkgs.Jig.Unmask
import Corepkgs.Jigd.Accounts
import Corepkgs.Jigd.CleanRestart
import Corepkgs.Jigd.Consistent
import Corepkgs.Jigd.Crash
import Corepkgs.Jigd.Demotion
import Corepkgs.Jigd.Durable
import Corepkgs.Jigd.Eviction
import Corepkgs.Jigd.FailedPut
import Corepkgs.Jigd.Frozen
import Corepkgs.Jigd.GetSound
import Corepkgs.Jigd.HintBounds
import Corepkgs.Jigd.HintsAgree
import Corepkgs.Jigd.IdWrap
import Corepkgs.Jigd.IdsDeadlock
import Corepkgs.Jigd.Index
import Corepkgs.Jigd.Latest
import Corepkgs.Jigd.Offsets
import Corepkgs.Jigd.Opening
import Corepkgs.Jigd.PutStep
import Corepkgs.Jigd.Reopen
import Corepkgs.Jigd.Restart
import Corepkgs.Jigd.Shelved
import Corepkgs.Jigd.ShelvedRun
import Corepkgs.Jigd.SlotAccounts
import Corepkgs.Jigd.SlotFairness
import Corepkgs.Jigd.Slots
import Corepkgs.Jigd.System
import Corepkgs.Jigd.TornTail
import Corepkgs.Jsem.Broker
import Corepkgs.Jsem.Conservation
import Corepkgs.Launch.Launch
import Corepkgs.Lib.Attrs
import Corepkgs.Lib.Fips180
import Corepkgs.Lib.Frames
import Corepkgs.Lib.Results
import Corepkgs.Lib.Strides
import Corepkgs.Nix.ApplyOverrides
import Corepkgs.Nix.Grouping
import Corepkgs.Uptrack.Expand
import Corepkgs.Uptrack.Version
