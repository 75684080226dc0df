import IcFront.Proofs.Outline
import IcFront.Scopes.Lookup

/-!
# Edits of arenas

While a region is worked on, only two things happen to an arena: scopes are added
at its end (`Arena.extend`), and the scope of the region receives symbols and
children (`Scope.receive`). This file has the laws by which a run of such edits
becomes one edit of the scope followed by one extension.
-/

namespace IcFront

/-- A scope that is asked to hold more symbols and given more children. -/
def Scope.receive (scope : Scope) (symbols : List Symbol) (children : List Nat) : Scope :=
  { scope with
    symbols := symbols.foldl (keepFirst (·.name)) scope.symbols
    children := scope.children ++ children }

@[simp] theorem Scope.receive_nil (scope : Scope) : scope.receive [] [] = scope := by
  simp [receive]

@[simp] theorem Scope.receive_receive (scope : Scope) (xs ys : List Symbol) (js ks : List Nat) :
    (scope.receive xs js).receive ys ks = scope.receive (xs ++ ys) (js ++ ks) := by
  simp [receive, List.foldl_append]

theorem Scope.lookup_isSome (scope : Scope) (name : String) :
    (scope.lookup name).isSome = scope.symbols.any (·.name == name) := by
  rw [lookup, Bool.eq_iff_iff, List.find?_isSome, List.any_eq_true]

namespace Arena

/-- An arena with more scopes at its end. -/
def extend (a : Arena) (more : List Scope) : Arena := ⟨a.scopes ++ more⟩

@[simp] theorem extend_nil (a : Arena) : a.extend [] = a := by simp [extend]

@[simp] theorem extend_extend (a : Arena) (more more' : List Scope) :
    (a.extend more).extend more' = a.extend (more ++ more') := by simp [extend]

@[simp] theorem size_extend (a : Arena) (more : List Scope) :
    (a.extend more).size = a.size + more.length := by simp [extend, size]

@[simp] theorem size_modify (a : Arena) (key : Nat) (f : Scope → Scope) :
    (a.modify key f).size = a.size := by simp [modify, size]

theorem ext_get? {a b : Arena} (h : ∀ k, a.get? k = b.get? k) : a = b :=
  congrArg Arena.mk (List.ext_getElem? h)

theorem get?_extend (a : Arena) (more : List Scope) (k : Nat) :
    (a.extend more).get? k = if k < a.size then a.get? k else more[k - a.size]? :=
  List.getElem?_append

theorem get?_extend_of_lt {a : Arena} {key : Nat} (h : key < a.size) (more : List Scope) :
    (a.extend more).get? key = a.get? key := by rw [get?_extend, if_pos h]

@[simp] theorem get?_extend_size (a : Arena) (s : Scope) (more : List Scope) :
    (a.extend (s :: more)).get? a.size = some s := by simp [get?_extend]

theorem get?_modify (a : Arena) (key k : Nat) (f : Scope → Scope) :
    (a.modify key f).get? k = if key = k then (a.get? k).map f else a.get? k := by
  rw [get?, modify, List.getElem?_modify]
  split <;> simp [get?]

theorem get?_modify_self (a : Arena) (key : Nat) (f : Scope → Scope) :
    (a.modify key f).get? key = (a.get? key).map f := by rw [get?_modify, if_pos rfl]

theorem modify_extend_of_lt {a : Arena} {key : Nat} (h : key < a.size) (more : List Scope)
    (f : Scope → Scope) : (a.extend more).modify key f = (a.modify key f).extend more := by
  apply ext_get?
  intro k
  rw [get?_modify, get?_extend, get?_extend, get?_modify, size_modify]
  split
  next he => rw [← he, if_pos h, if_pos h]
  next => rfl

@[simp] theorem modify_extend_size (a : Arena) (s : Scope) (more : List Scope)
    (f : Scope → Scope) : (a.extend (s :: more)).modify a.size f = a.extend (f s :: more) := by
  refine congrArg Arena.mk ?_
  show (a.scopes ++ s :: more).modify a.scopes.length f = _
  induction a.scopes with
  | nil => rfl
  | cons x xs ih => exact congrArg (x :: ·) ih

@[simp] theorem modify_modify (a : Arena) (key : Nat) (f g : Scope → Scope) :
    (a.modify key f).modify key g = a.modify key fun s => g (f s) :=
  congrArg Arena.mk (List.modify_modify_eq f g key a.scopes)

/-- Changes that agree on the scope they meet are the same. -/
theorem modify_congr {a : Arena} {key : Nat} {scope : Scope} (h : a.get? key = some scope)
    {f g : Scope → Scope} (hfg : f scope = g scope) : a.modify key f = a.modify key g := by
  apply ext_get?
  intro k
  rw [get?_modify, get?_modify]
  split
  next he => rw [← he, h, Option.map_some, Option.map_some, hfg]
  next => rfl

@[simp] theorem modify_id (a : Arena) (key : Nat) : a.modify key (fun s => s) = a :=
  congrArg Arena.mk (List.modify_id key a.scopes)

theorem get?_eq_some {a : Arena} {key : Nat} (h : key < a.size) :
    ∃ scope, a.get? key = some scope :=
  ⟨a.scopes[key], List.getElem?_eq_getElem h⟩

theorem addChild_eq (a : Arena) (parent child : Nat) :
    a.addChild parent child = a.modify parent (·.receive [] [child]) := rfl

theorem setParent_eq (a : Arena) (child parent : Nat) :
    a.setParent child parent = a.modify child fun s => { s with parent := some parent } := rfl

/-- Declaring a symbol fails where its name is taken. -/
theorem insert?_eq_none {a : Arena} {key : Nat} {scope : Scope} (h : a.get? key = some scope)
    {s : Symbol} (ht : scope.symbols.any (·.name == s.name) = true) : a.insert? key s = none := by
  rw [← Scope.lookup_isSome] at ht
  obtain ⟨x, hx⟩ := Option.isSome_iff_exists.mp ht
  simp only [insert?, h, hx]

/-- Declaring a symbol under a new name adds it to its scope. -/
theorem insert?_eq_some {a : Arena} {key : Nat} {scope : Scope} (h : a.get? key = some scope)
    {s : Symbol} (ht : scope.symbols.any (·.name == s.name) = false) :
    a.insert? key s = some (a.modify key (·.receive [s] [])) := by
  have hnone : scope.lookup s.name = none := by
    rw [← Option.not_isSome_iff_eq_none, Scope.lookup_isSome, ht]
    simp
  simp only [insert?, h, hnone]
  refine congrArg some (modify_congr h ?_)
  simp [Scope.receive, keepFirst, ht]

end Arena

end IcFront
