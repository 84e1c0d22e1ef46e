import Overscope.Session.Run
import Overscope.Proofs.Acyclic
import Overscope.Proofs.View
import Overscope.Proofs.ViewEval
import Overscope.Proofs.DataEval
import Overscope.Proofs.Host
import Overscope.Proofs.Isolation
import Overscope.Proofs.Rewiring
import Overscope.Proofs.OwnMask
import Overscope.Proofs.Steady
import Overscope.Proofs.MaskReuse
import Overscope.Proofs.Limit
import Overscope.Proofs.MaskScope
import Overscope.Proofs.Order
import Overscope.Proofs.NestedQuosures
import Overscope.Proofs.MaskHistory
import Overscope.Proofs.Procedure
import Overscope.Proofs.Recursion
import Overscope.Proofs.Adequacy
import Overscope.Proofs.Termination
import Overscope.Proofs.Twins
import Overscope.Proofs.Indifference
import Overscope.Proofs.NoData
import Overscope.Proofs.Splicing
import Overscope.Proofs.Interning
import Overscope.Proofs.Layers
import Overscope.Proofs.Lifetime
import Overscope.Proofs.Irrelevance
import Overscope.Proofs.Mentions
import Overscope.Proofs.Pointing
import Overscope.Proofs.MaskChain
import Overscope.Proofs.NewParent
import Overscope.Proofs.ListData
import Overscope.Proofs.StrippedTwice
import Overscope.Proofs.Wearing
import Overscope.Proofs.QuosureInMask
import Overscope.Proofs.Unwinding
import Overscope.Proofs.Pronoun
import Overscope.Proofs.TwoReaders
import Overscope.Proofs.FallingBack
import Overscope.Proofs.PlainFormula
import Overscope.Proofs.Asking
import Overscope.Proofs.ResolvedOnce
import Overscope.Proofs.Integers
