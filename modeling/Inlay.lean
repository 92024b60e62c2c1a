import Inlay.Main
import Inlay.Proofs.SourceMap.Names
import Inlay.Proofs.Inclusion.Readback
import Inlay.Proofs.Inclusion.Labels
import Inlay.Proofs.Inclusion.InPlace
import Inlay.Proofs.Inclusion.Welding
import Inlay.Proofs.Cli.Check
import Inlay.Proofs.Directives
import Inlay.Proofs.Inclusion.Depth
import Inlay.Proofs.Registries
import Inlay.Proofs.Tree.Placements
import Inlay.Proofs.Script.Ranges
import Inlay.Proofs.Script.Escapes
import Inlay.Proofs.Script.Numbers
import Inlay.Proofs.Script.Breaks
import Inlay.Proofs.SourceMap.Entries
