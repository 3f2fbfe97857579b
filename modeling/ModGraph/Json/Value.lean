import ModGraph.Decimal.Binary64

/-!
# JSON values

The values that modules export. A number is an integer or a binary floating-point number, and the two
never mix: `1` and `1.0` are different values. The members of an object are kept in the order of
their names, each name once; `Members.insert` and `Members.erase` keep that order, and what they do is
said by `Members.get?_insert`.
-/

namespace ModGraph.Json

open Decimal (Binary64)

/-- A number. -/
inductive Number where
  /-- An integer. -/
  | integer (i : Int)
  /-- A binary floating-point number. -/
  | real (x : Binary64)
deriving DecidableEq, Repr, Inhabited

/-- A value. -/
inductive Value where
  /-- The null value. -/
  | null
  /-- A truth value. -/
  | bool (b : Bool)
  /-- A number. -/
  | number (n : Number)
  /-- A text. -/
  | string (s : String)
  /-- A list of values. -/
  | array (items : List Value)
  /-- Named values, in the order of their names. -/
  | object (members : List (String × Value))
deriving Repr, Inhabited

/-! ### Members of an object -/

namespace Members

/-- Bind a name, before the first greater name; a binding of the same name is replaced. -/
def insert (name : String) (v : α) : List (String × α) → List (String × α)
  | [] => [(name, v)]
  | (k, w) :: rest =>
    if k = name then (name, v) :: rest
    else if name < k then (name, v) :: (k, w) :: rest
    else (k, w) :: insert name v rest

/-- The value bound to a name. -/
def get? (name : String) : List (String × α) → Option α
  | [] => none
  | (k, w) :: rest => if k = name then some w else get? name rest

/-- Bind every name of a list in turn, so that the last binding of a name stays. -/
def ofList (members : List (String × α)) : List (String × α) :=
  members.foldl (fun done m => insert m.1 m.2 done) []

/-- The value bound to a name after another binding was added. -/
theorem get?_insert (name k : String) (v : α) (ms : List (String × α)) :
    get? k (insert name v ms) = if name = k then some v else get? k ms := by
  induction ms with
  | nil => simp [insert, get?]
  | cons m ms ih =>
    obtain ⟨k₀, w⟩ := m
    by_cases h₀ : k₀ = name
    · subst h₀
      by_cases h : k₀ = k <;> simp [insert, get?, h]
    · by_cases hlt : name < k₀
      · simp [insert, get?, h₀, hlt]
      · by_cases h : k₀ = k
        · subst h
          simp [insert, get?, h₀, hlt, Ne.symm h₀]
        · simp [insert, get?, h₀, hlt, h, ih]

end Members

/-- The value of a member; a value that is no object has none. -/
def Value.get? (v : Value) (name : String) : Option Value :=
  match v with
  | .object ms => Members.get? name ms
  | _ => none

/-- Bind a member; a value that is no object is first replaced by the empty object. -/
def Value.set (v : Value) (name : String) (w : Value) : Value :=
  match v with
  | .object ms => .object (Members.insert name w ms)
  | _ => .object [(name, w)]

theorem Value.get?_set (v w : Value) (name k : String) :
    (v.set name w).get? k = if name = k then some w else v.get? k := by
  cases v <;> simp [Value.set, Value.get?, Members.get?_insert]
  all_goals simp [Members.get?]

end ModGraph.Json
