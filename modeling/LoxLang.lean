import LoxLang.Proofs.Lockstep.Uniform
import LoxLang.Run.Fuel
import LoxLang.Session
import LoxLang.Proofs.Confinement
import LoxLang.Proofs.Watch
import LoxLang.Proofs.History
import LoxLang.Proofs.Reading
import LoxLang.Proofs.Safety
import LoxLang.Proofs.Scope
import LoxLang.Proofs.Loop
import LoxLang.Proofs.Depth
import LoxLang.Proofs.Limit
import LoxLang.Proofs.Termination
import LoxLang.Proofs.Manner
import LoxLang.Proofs.Exit
import LoxLang.Proofs.Trace
import LoxLang.Proofs.Exhaustion
import LoxLang.Proofs.Derivation
import LoxLang.Proofs.Location
import LoxLang.Proofs.Language
import LoxLang.Proofs.Completeness
import LoxLang.Proofs.Lexing
import LoxLang.Proofs.Relocation
import LoxLang.Proofs.Printing
import LoxLang.Proofs.Rejection
import LoxLang.Proofs.Lockstep.Likeness
import LoxLang.Proofs.Renaming
import LoxLang.Proofs.Relocation.Reader
import LoxLang.Proofs.Scanning
import LoxLang.Proofs.Reformatting
import LoxLang.Proofs.Log
import LoxLang.Proofs.Joining
import LoxLang.Proofs.Reserved
import LoxLang.Proofs.Lowering
import LoxLang.Proofs.Chain
import LoxLang.Proofs.Binding
import LoxLang.Proofs.Calling
import LoxLang.Proofs.Numeral
import LoxLang.Proofs.Identity
