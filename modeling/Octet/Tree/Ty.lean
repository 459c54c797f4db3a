/-!
Types. Besides the types that a program can write there are two that only
checking needs: the type of a number whose width nothing has fixed yet, and
the types of functions.
-/

namespace Octet

inductive Ty where
  | void
  | u8
  | i8
  | bool
  /-- The type of a number that may still become `u8` or `i8`. -/
  | literal
  /-- A type known by its name only. -/
  | named (name : String)
  | function (parameters : List Ty) (returns : Ty)
  deriving Repr

namespace Ty

/-! ### Equality

Types are compared by their structure. -/

mutual

def beq : Ty → Ty → Bool
  | void, void => true
  | u8, u8 => true
  | i8, i8 => true
  | bool, bool => true
  | literal, literal => true
  | named a, named b => a == b
  | function ps r, function qs s => beqAll ps qs && r.beq s
  | _, _ => false

def beqAll : List Ty → List Ty → Bool
  | [], [] => true
  | p :: ps, q :: qs => p.beq q && beqAll ps qs
  | _, _ => false

end

mutual

theorem eq_of_beq : (a b : Ty) → a.beq b = true → a = b
  | void, b, h => by cases b <;> simp_all [beq]
  | u8, b, h => by cases b <;> simp_all [beq]
  | i8, b, h => by cases b <;> simp_all [beq]
  | bool, b, h => by cases b <;> simp_all [beq]
  | literal, b, h => by cases b <;> simp_all [beq]
  | named x, b, h => by cases b <;> simp_all [beq]
  | function ps r, b, h => by
      cases b with
      | function qs s =>
          simp only [beq, Bool.and_eq_true] at h
          rw [eq_of_beqAll ps qs h.1, eq_of_beq r s h.2]
      | _ => simp [beq] at h

theorem eq_of_beqAll : (ps qs : List Ty) → beqAll ps qs = true → ps = qs
  | [], qs, h => by cases qs <;> simp_all [beqAll]
  | p :: ps, qs, h => by
      cases qs with
      | nil => simp [beqAll] at h
      | cons q qs =>
          simp only [beqAll, Bool.and_eq_true] at h
          rw [eq_of_beq p q h.1, eq_of_beqAll ps qs h.2]

end

mutual

theorem beq_refl : (a : Ty) → a.beq a = true
  | void | u8 | i8 | bool | literal => rfl
  | named x => by simp [beq]
  | function ps r => by simp [beq, beqAll_refl ps, beq_refl r]

theorem beqAll_refl : (ps : List Ty) → beqAll ps ps = true
  | [] => rfl
  | p :: ps => by simp [beqAll, beq_refl p, beqAll_refl ps]

end

theorem beq_iff (a b : Ty) : a.beq b = true ↔ a = b :=
  ⟨eq_of_beq a b, fun h => h ▸ beq_refl a⟩

instance : DecidableEq Ty := fun a b => decidable_of_iff (a.beq b = true) (beq_iff a b)

/-! ### Numbers -/

def isNumerical : Ty → Bool
  | u8 | i8 | literal => true
  | _ => false

/-- The type of a number once nothing else fixes its width. -/
def defaulted : Ty → Ty
  | literal => u8
  | t => t

/-- A value of type `received` may be stored where a value of type `t` is
wanted. -/
def accepts (t received : Ty) : Bool :=
  t == received || (received == literal && t.isNumerical)

/-! ### Texts -/

mutual

def text : Ty → String
  | void => "void"
  | u8 => "u8"
  | i8 => "i8"
  | bool => "bool"
  | literal => "\x7binteger\x7d"
  | named name => name
  | function ps r => "(" ++ ", ".intercalate (texts ps) ++ ") -> " ++ r.text

def texts : List Ty → List String
  | [] => []
  | t :: ts => t.text :: texts ts

end

end Ty

end Octet
