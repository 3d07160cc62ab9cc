import CaLang.Shielding.Resolution
import CaLang.Types.Hygiene
import CaLang.Types.Lowering
import CaLang.Parser.ScopeMain
import CaLang.Parser.Variadic
import CaLang.Parser.ClassifiedFiles
import CaLang.Codegen.Restored
import CaLang.Codegen.LabelScopes
import CaLang.Lexical.Numbering
import CaLang.Params.Unshadowed
import CaLang.Arith.Signedness
import CaLang.Text.StringLiterals
import CaLang.Literals.Exact
import CaLang.Literals.ArrayLengths
import CaLang.Types.LayoutRuns
import CaLang.Operands.Discipline
import CaLang.Pointers.Exact
import CaLang.Branches.Exact
import CaLang.Text.Lines
import CaLang.Structs.Literals
import CaLang.Structs.Access
import CaLang.Addresses.Slices
import CaLang.Loops.Exact
import CaLang.Patterns.Exact
import CaLang.Parser.PendingLists
import CaLang.Lexical.Distinct
import CaLang.Traits.Impls
import CaLang.Functions.Returns
