import Nodeless.Main
import Nodeless.Command.Session
import Nodeless.Proofs.Build.Orderly
import Nodeless.Proofs.Build.Shadowing
import Nodeless.Proofs.Environment.Handlers
import Nodeless.Proofs.Scope.Free
import Nodeless.Proofs.Environment.Build
import Nodeless.Proofs.Build.History
import Nodeless.Proofs.Environment.Place
import Nodeless.Proofs.Event.Braces
import Nodeless.Proofs.Event.Fates
import Nodeless.Proofs.Token.Substitution
import Nodeless.Proofs.Token.Renaming
import Nodeless.Proofs.Build.Wrapper
import Nodeless.Proofs.Environment.Evaluation
import Nodeless.Proofs.Command.Run
import Nodeless.Proofs.Command.Target
import Nodeless.Proofs.Module.Overlap
import Nodeless.Proofs.Build.Dispatch
import Nodeless.Proofs.Build.ModuleScope
import Nodeless.Proofs.Path.Directory
import Nodeless.Proofs.Path.Canonical
import Nodeless.Proofs.Environment.ShimRequest
import Nodeless.Proofs.Environment.Bindings
import Nodeless.Proofs.Event.ParameterLists
import Nodeless.Proofs.Event.KeyRenaming
import Nodeless.Proofs.Event.Offence
import Nodeless.Proofs.Token.SlashStart
import Nodeless.Proofs.Token.Openings
import Nodeless.Proofs.Options.Agreement
import Nodeless.Proofs.Event.Dotted
