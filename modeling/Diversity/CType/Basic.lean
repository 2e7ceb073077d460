/-! C types as the descriptions write them. -/
namespace Diversity

inductive CType where
  /-- A type known by its words, joined by single spaces. -/
  | named (name : String)
  | pointer (target : CType)
  | array (element : CType) (length : Option UInt64)
  | function (result : CType) (params : List CType) (variadic : Bool)
  deriving Inhabited

namespace CType

def void : CType := .named "void"

def isVoid : CType → Bool
  | .named name => name == "void"
  | _ => false

/-- What a pointer points at or an array holds. -/
def pointee : CType → Option CType
  | .pointer target => some target
  | .array element _ => some element
  | _ => none

mutual

/-- The text of the type in the notation of the descriptions. -/
def text : CType → String
  | .named name => name
  | .pointer target => "*" ++ text target
  | .array element none => "[]" ++ text element
  | .array element (some length) => "[" ++ toString length.toNat ++ "]" ++ text element
  | .function result params variadic =>
    let texts := texts params ++ (if variadic then ["..."] else [])
    "fn (" ++ ", ".intercalate texts ++ ") " ++ text result

def texts : List CType → List String
  | [] => []
  | t :: ts => text t :: texts ts

end

mutual

def decEq : (s t : CType) → Decidable (s = t)
  | .named m, .named n => if h : m = n then isTrue (by rw [h]) else isFalse (by simp [h])
  | .pointer s, .pointer t =>
    match decEq s t with
    | isTrue h => isTrue (by rw [h])
    | isFalse h => isFalse (by simp [h])
  | .array s m, .array t n =>
    match decEq s t with
    | isTrue h => if g : m = n then isTrue (by rw [h, g]) else isFalse (by simp [g])
    | isFalse h => isFalse (by simp [h])
  | .function s ps m, .function t qs n =>
    match decEq s t, decEqList ps qs with
    | isTrue h, isTrue k => if g : m = n then isTrue (by rw [h, k, g]) else isFalse (by simp [g])
    | isFalse h, _ => isFalse (by simp [h])
    | _, isFalse k => isFalse (by simp [k])
  | .named _, .pointer _ | .named _, .array _ _ | .named _, .function _ _ _
  | .pointer _, .named _ | .pointer _, .array _ _ | .pointer _, .function _ _ _
  | .array _ _, .named _ | .array _ _, .pointer _ | .array _ _, .function _ _ _
  | .function _ _ _, .named _ | .function _ _ _, .pointer _ | .function _ _ _, .array _ _ =>
    isFalse (by simp)

def decEqList : (ss ts : List CType) → Decidable (ss = ts)
  | [], [] => isTrue rfl
  | s :: ss, t :: ts =>
    match decEq s t, decEqList ss ts with
    | isTrue h, isTrue k => isTrue (by rw [h, k])
    | isFalse h, _ => isFalse (by simp [h])
    | _, isFalse k => isFalse (by simp [k])
  | [], _ :: _ | _ :: _, [] => isFalse (by simp)

end

instance : DecidableEq CType := decEq

end CType

end Diversity
