import MessageLang.Tree.Outline
import MessageLang.Tree.Phrase
import MessageLang.Tree.Rule
import MessageLang.Types.Graph
import MessageLang.Program
import MessageLang.Proofs.Assign.Refusing
import MessageLang.Proofs.Assign.Interchange
import MessageLang.Proofs.Assign.Instances
import MessageLang.Proofs.Assign.Unions
import MessageLang.Proofs.Core.Intact
import MessageLang.Proofs.Core.Misplaced
import MessageLang.Proofs.Core.Hygiene
import MessageLang.Proofs.Core.Surviving
import MessageLang.Proofs.Core.Coordinates
import MessageLang.Proofs.Core.Written
import MessageLang.Proofs.Core.Phrases
import MessageLang.Proofs.Core.Terminating
import MessageLang.Proofs.Tree.Twins
import MessageLang.Proofs.Typing.Dispatching
import MessageLang.Proofs.Typing.Retrying
import MessageLang.Proofs.Typing.Unknowns
import MessageLang.Proofs.Typing.Muting
import MessageLang.Proofs.Typing.Stranding
import MessageLang.Proofs.Typing.Calls
import MessageLang.Proofs.Reports
import MessageLang.Proofs.Repetitions
import MessageLang.Proofs.Types.Images
import MessageLang.Proofs.Types.Speaking
import MessageLang.Proofs.Types.Flattening
import MessageLang.Proofs.Types.Reordering
import MessageLang.Proofs.Types.Copies
import MessageLang.Proofs.Types.Exchange
import MessageLang.Proofs.Typing.Sharing
import MessageLang.Proofs.Typing.UnknownTypes
import MessageLang.Proofs.Typing.InRange
import MessageLang.Proofs.Typing.Shadowing
import MessageLang.Proofs.Text.Positions
