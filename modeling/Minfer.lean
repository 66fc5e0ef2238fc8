import Minfer.Graph.Proofs.Resize
import Minfer.Graph.Proofs.Isolation
import Minfer.Graph.Proofs.Windows
import Minfer.Graph.Proofs.Extent
import Minfer.Graph.Proofs.Simultaneous
import Minfer.Graph.Proofs.Recycle
import Minfer.Graph.Proofs.Restored
import Minfer.Server.Proofs.Handshake
import Minfer.Server.Proofs.Serial
import Minfer.Server.Proofs.Supervisor
import Minfer.Gguf.Proofs.Size
import Minfer.Gguf.Proofs.Split
import Minfer.Gguf.Proofs.Panics
import Minfer.Session.Proofs.SpecTurn
import Minfer.Tokenizer.Proofs.Total
import Minfer.Tokenizer.Proofs.Nfc
import Minfer.Session.Proofs.Stream
import Minfer.Session.Proofs.Canonical
import Minfer.Session.Proofs.Refused
import Minfer.Session.Proofs.Context
import Minfer.Server.Proofs.Siblings
import Minfer.Grammar.Proofs.Simulate
import Minfer.Grammar.Proofs.Compile
import Minfer.Graph.Proofs.Reserve
import Minfer.Server.Proofs.Forwards
import Minfer.Server.Proofs.StopStrings
import Minfer.Grammar.Proofs.Legal
import Minfer.Grammar.Proofs.Partial
import Minfer.Grammar.Proofs.Blocks
import Minfer.Grammar.Proofs.Complete
import Minfer.Grammar.Proofs.Depth
import Minfer.Grammar.Proofs.Recognise
import Minfer.Graph.Proofs.SessionFile
import Minfer.Graph.Proofs.SessionLoad
import Minfer.Server.Proofs.Slots
import Minfer.Server.Proofs.Streaming
import Minfer.Grammar.Proofs.IntRange
import Minfer.Grammar.Proofs.Literal
import Minfer.Grammar.Proofs.Mask
import Minfer.Sampler.Proofs.Forbidden
import Minfer.Sampler.Proofs.Dry
import Minfer.Convert.Proofs.Kept
import Minfer.Quants.Proofs.ReadBack
import Minfer.Template.Proofs.StrMethod
import Minfer.Tokenizer.Proofs.Merge
import Minfer.Graph.Proofs.Cache
import Minfer.Graph.Proofs.Fusion
