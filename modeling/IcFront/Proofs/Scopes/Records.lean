import IcFront.Proofs.Scopes.Subtree

/-!
# Scopes as records

An `Arena` names scopes by their places in a list, and finds symbols by the names that they
have. `Records` say all of this once more: each scope has a key of its own, which is what is
written down where it becomes a child or a parent, and a dictionary that has each symbol
under a name. So there is something to keep up: that keys are places, that only keys of
scopes are written down, and that symbols are under their own names (`Records.InOrder`).

`Records.Does` is one call on scopes, `Records.Runs` many of them. What one call keeps is
that records are in order, that nothing of what a scope had is gone or has been moved
(`Records.KeptIn`), and that without keys and names they are the arena that the same call
makes (`Does.spec`); what many calls keep is then an induction along the run
(`runs_kept`).

The one call that goes on for longer is that of linking. It writes to many scopes, but to
their parents only (`Links.spec`), and since no call of it may be endless, it comes to what
`linkBelow` does.
-/

namespace IcFront

/-- A scope with its own key and with its symbols under names. -/
structure ScopeRecord where
  key : Nat
  kind : ScopeKind
  name : String := ""
  symbols : List (String × Symbol) := []
  children : List Nat := []
  parent : Option Nat := none

/-- A dictionary in which a name stands for a symbol: in the place of what it stood for
before, or else at the end. -/
def assign (name : String) (s : Symbol) : List (String × Symbol) → List (String × Symbol)
  | [] => [(name, s)]
  | (n, old) :: rest => if n = name then (n, s) :: rest else (n, old) :: assign name s rest

/-- A new name goes to the end. -/
theorem assign_of_lookup_eq_none {name : String} {s : Symbol} {entries : List (String × Symbol)}
    (h : entries.lookup name = none) : assign name s entries = entries ++ [(name, s)] := by
  induction entries with
  | nil => rfl
  | cons entry rest ih =>
    obtain ⟨n, old⟩ := entry
    rw [List.lookup_cons] at h
    split at h
    next => cases h
    next hne =>
      have hn : n ≠ name := fun he => beq_eq_false_iff_ne.mp hne he.symm
      rw [assign, if_neg hn, ih h]
      rfl

namespace ScopeRecord

/-- The scope without its key and the names that its symbols are under. -/
def plain (s : ScopeRecord) : Scope :=
  ⟨s.kind, s.name, s.symbols.map (·.2), s.children, s.parent⟩

/-- Puts a symbol under its name. -/
def declare (s : ScopeRecord) (x : Symbol) : ScopeRecord :=
  { s with symbols := assign x.name x s.symbols }

/-- Writes a key down as that of the last child. -/
def adopt (s : ScopeRecord) (key : Nat) : ScopeRecord := { s with children := s.children ++ [key] }

/-- Writes a key down as that of the parent. -/
def under (s : ScopeRecord) (key : Nat) : ScopeRecord := { s with parent := some key }

/-- Whether symbols are under their own names, and no two under one. -/
def Named (s : ScopeRecord) : Prop :=
  (∀ entry ∈ s.symbols, entry.1 = entry.2.name) ∧ (s.symbols.map (·.1)).Nodup

/-- Whether a scope still is what it was, and still has what it had, in the same places. -/
structure KeptIn (s s' : ScopeRecord) : Prop where
  key : s'.key = s.key
  kind : s'.kind = s.kind
  name : s'.name = s.name
  symbols : s.symbols <+: s'.symbols
  children : s.children <+: s'.children

theorem KeptIn.refl (s : ScopeRecord) : s.KeptIn s :=
  ⟨rfl, rfl, rfl, List.prefix_rfl, List.prefix_rfl⟩

theorem KeptIn.trans {s s' s'' : ScopeRecord} (h : s.KeptIn s') (h' : s'.KeptIn s'') :
    s.KeptIn s'' :=
  ⟨h'.key.trans h.key, h'.kind.trans h.kind, h'.name.trans h.name, h.symbols.trans h'.symbols,
    h.children.trans h'.children⟩

section Declare

variable {s : ScopeRecord} {x : Symbol}

/-- In order, a symbol is found under its name or not at all. -/
theorem Named.lookup_plain (h : s.Named) (name : String) :
    s.plain.lookup name = s.symbols.lookup name := by
  obtain ⟨hnames, -⟩ := h
  rw [Scope.lookup, plain]
  dsimp only
  generalize s.symbols = entries at hnames ⊢
  induction entries with
  | nil => rfl
  | cons entry rest ih =>
    obtain ⟨n, y⟩ := entry
    obtain rfl : n = y.name := hnames (n, y) List.mem_cons_self
    rw [List.map_cons, List.find?_cons, List.lookup_cons]
    by_cases hn : y.name = name
    · subst hn
      simp only [beq_self_eq_true]
    · have hne : (y.name == name) = false := beq_eq_false_iff_ne.mpr hn
      have hne' : (name == y.name) = false := beq_eq_false_iff_ne.mpr fun he => hn he.symm
      simp only [hne, hne']
      exact ih fun e he => hnames e (List.mem_cons_of_mem _ he)

variable (hnew : s.symbols.lookup x.name = none)
include hnew

theorem declare_symbols : (s.declare x).symbols = s.symbols ++ [(x.name, x)] :=
  assign_of_lookup_eq_none hnew

theorem keptIn_declare : s.KeptIn (s.declare x) := by
  refine ⟨rfl, rfl, rfl, ?_, List.prefix_rfl⟩
  rw [declare_symbols hnew]
  exact List.prefix_append _ _

theorem Named.declare (h : s.Named) : (s.declare x).Named := by
  obtain ⟨hnames, hnodup⟩ := h
  have hfresh : x.name ∉ s.symbols.map (·.1) := by
    intro hmem
    obtain ⟨entry, hentry, hname⟩ := List.mem_map.mp hmem
    have hne := List.lookup_eq_none_iff.mp hnew entry hentry
    rw [hname, bne_self_eq_false] at hne
    cases hne
  rw [Named, declare_symbols hnew]
  constructor
  · intro entry hentry
    rcases List.mem_append.mp hentry with hold | hone
    · exact hnames entry hold
    · rw [List.mem_singleton.mp hone]
  · rw [List.map_append, List.nodup_append]
    refine ⟨hnodup, List.nodup_singleton _, fun n hn n' hn' heq => ?_⟩
    rw [List.map_singleton, List.mem_singleton] at hn'
    rw [heq, hn'] at hn
    exact hfresh hn

theorem plain_declare :
    (s.declare x).plain = { s.plain with symbols := s.plain.symbols ++ [x] } := by
  rw [plain, declare_symbols hnew, List.map_append]
  rfl

end Declare

theorem keptIn_adopt (s : ScopeRecord) (key : Nat) : s.KeptIn (s.adopt key) :=
  ⟨rfl, rfl, rfl, List.prefix_rfl, List.prefix_append _ _⟩

theorem keptIn_under (s : ScopeRecord) (key : Nat) : s.KeptIn (s.under key) :=
  ⟨rfl, rfl, rfl, List.prefix_rfl, List.prefix_rfl⟩

end ScopeRecord

/-- The scopes of a program, each in the place that is its key. -/
structure Records where
  all : List ScopeRecord := []

/-- What can be asked of scopes that are referred to by their places. -/
inductive ScopeCall
  | newScope (kind : ScopeKind) (name : String)
  | insert (scope : Nat) (s : Symbol)
  | addChild (parent child : Nat)
  | setParent (child parent : Nat)
  | linkBelow (root : Nat)

/-- The arena after a call. A symbol whose name is taken is not declared. -/
def Arena.after (a : Arena) : ScopeCall → Arena
  | .newScope kind name => (a.newScope kind name).1
  | .insert scope s => (a.insert? scope s).getD a
  | .addChild parent child => a.addChild parent child
  | .setParent child parent => a.setParent child parent
  | .linkBelow root => a.linkBelow root

namespace Records

variable {r r' r'' : Records} {i j k : Nat} {s scope parent child : ScopeRecord}

/-- The number of scopes. -/
def size (r : Records) : Nat := r.all.length

/-- The scope in a place. -/
def get? (r : Records) (i : Nat) : Option ScopeRecord := r.all[i]?

/-- Changes the scope in a place. -/
def modify (r : Records) (i : Nat) (f : ScopeRecord → ScopeRecord) : Records := ⟨r.all.modify i f⟩

/-- Makes a scope, whose key is the number of those there are. -/
def newScope (r : Records) (kind : ScopeKind) (name : String) : Records :=
  ⟨r.all ++ [{ key := r.all.length, kind, name }]⟩

/-- The children of the scope in a place, if there is one. -/
def inner? (r : Records) (i : Nat) : Option (List Nat) := (r.get? i).map (·.children)

/-- Writes the key of one scope down as that of the parent of another. -/
def point (r : Records) (child parent : Nat) : Records :=
  match r.get? parent with
  | some scope => r.modify child (·.under scope.key)
  | none => r

/-- The arena of which these are the scopes. -/
def plain (r : Records) : Arena := ⟨r.all.map ScopeRecord.plain⟩

/-- What becomes of scopes by a call on some of them. A symbol is refused if its name is
taken, and a call that links scopes must end. -/
inductive Does (r : Records) : ScopeCall → Records → Prop
  | newScope (kind : ScopeKind) (name : String) : Does r (.newScope kind name) (r.newScope kind name)
  | insert {i : Nat} {scope : ScopeRecord} {s : Symbol} (h : r.get? i = some scope)
    (hnew : scope.symbols.lookup s.name = none) : Does r (.insert i s) (r.modify i (·.declare s))
  | refuse {i : Nat} {scope : ScopeRecord} {s old : Symbol} (h : r.get? i = some scope)
    (htaken : scope.symbols.lookup s.name = some old) : Does r (.insert i s) r
  | addChild {i j : Nat} {parent child : ScopeRecord} (hparent : r.get? i = some parent)
    (hchild : r.get? j = some child) : Does r (.addChild i j) (r.modify i (·.adopt child.key))
  | setParent {i j : Nat} {parent child : ScopeRecord} (hchild : r.get? j = some child)
    (hparent : r.get? i = some parent) : Does r (.setParent j i) (r.modify j (·.under parent.key))
  | linkBelow {i : Nat} {scope : ScopeRecord} {r' : Records} (h : r.get? i = some scope)
    (hends : Links inner? point r i scope.children r') : Does r (.linkBelow i) r'

/-- What becomes of scopes by calls that are made one after another. -/
inductive Runs : Records → List ScopeCall → Records → Prop
  | done (r : Records) : Runs r [] r
  | next {r r' r'' : Records} {call : ScopeCall} {calls : List ScopeCall} (h : r.Does call r')
    (hrest : Runs r' calls r'') : Runs r (call :: calls) r''

/-- Whether keys are places, only keys of scopes are written down, and symbols are under their
own names. -/
structure InOrder (r : Records) : Prop where
  key_eq : ∀ k s, r.get? k = some s → s.key = k
  children_lt : ∀ k s, r.get? k = some s → ∀ child ∈ s.children, child < r.size
  parent_lt : ∀ k s, r.get? k = some s → ∀ parent, s.parent = some parent → parent < r.size
  named : ∀ k s, r.get? k = some s → s.Named

/-- Whether every scope is still there, in its place, with all it had. -/
def KeptIn (r r' : Records) : Prop :=
  ∀ k s, r.get? k = some s → ∃ s', r'.get? k = some s' ∧ s.KeptIn s'

theorem KeptIn.refl (r : Records) : r.KeptIn r := fun _ s hs => ⟨s, hs, .refl s⟩

theorem KeptIn.trans (h : r.KeptIn r') (h' : r'.KeptIn r'') : r.KeptIn r'' := by
  intro k s hs
  obtain ⟨s', hs', hkept⟩ := h k s hs
  obtain ⟨s'', hs'', hkept'⟩ := h' k s' hs'
  exact ⟨s'', hs'', hkept.trans hkept'⟩

/-! ## Places -/

theorem lt_size_of_get? (h : r.get? k = some s) : k < r.size := (List.getElem?_eq_some_iff.mp h).1

@[simp] theorem size_modify (r : Records) (i : Nat) (f : ScopeRecord → ScopeRecord) :
    (r.modify i f).size = r.size := by simp [modify, size]

theorem get?_modify (r : Records) (i k : Nat) (f : ScopeRecord → ScopeRecord) :
    (r.modify i f).get? k = if i = k then (r.get? k).map f else r.get? k := by
  rw [get?, modify, List.getElem?_modify]
  split <;> simp [get?]

theorem get?_newScope (r : Records) (kind : ScopeKind) (name : String) (k : Nat) :
    (r.newScope kind name).get? k =
      if k = r.size then some { key := r.size, kind, name } else r.get? k := by
  show (r.all ++ [_])[k]? = if k = r.all.length then _ else r.all[k]?
  by_cases hk : k = r.all.length
  · subst hk
    rw [if_pos rfl, List.getElem?_concat_length]
    rfl
  · rw [if_neg hk, List.getElem?_append]
    by_cases hlt : k < r.all.length
    · rw [if_pos hlt]
    · rw [if_neg hlt, List.getElem?_eq_none (by omega : r.all.length ≤ k),
        List.getElem?_eq_none (by rw [List.length_singleton]; omega)]

theorem get?_plain (r : Records) (k : Nat) : r.plain.get? k = (r.get? k).map ScopeRecord.plain :=
  List.getElem?_map

@[simp] theorem size_plain (r : Records) : r.plain.size = r.size := List.length_map _

/-- A change that keys and names have no part in is one of the arena. -/
theorem plain_modify (hs : r.get? i = some s) {f : ScopeRecord → ScopeRecord} {g : Scope → Scope}
    (hfg : (f s).plain = g s.plain) : (r.modify i f).plain = r.plain.modify i g := by
  apply Arena.ext_get?
  intro k
  rw [get?_plain, get?_modify, Arena.get?_modify, get?_plain]
  by_cases hk : i = k
  · subst hk
    rw [if_pos rfl, if_pos rfl, hs]
    exact congrArg some hfg
  · rw [if_neg hk, if_neg hk]

/-! ## One change -/

theorem keptIn_modify (hs : r.get? i = some s) {f : ScopeRecord → ScopeRecord}
    (hf : s.KeptIn (f s)) : r.KeptIn (r.modify i f) := by
  intro k t ht
  rw [get?_modify]
  by_cases hk : i = k
  · subst hk
    obtain rfl := Option.some.inj (hs.symm.trans ht)
    exact ⟨f s, by rw [if_pos rfl, hs]; rfl, hf⟩
  · exact ⟨t, by rw [if_neg hk]; exact ht, .refl t⟩

/-- Records are in order if each of them is. -/
theorem InOrder.of_each (h : ∀ k t, r.get? k = some t →
    t.key = k ∧ (∀ child ∈ t.children, child < r.size) ∧
      (∀ parent, t.parent = some parent → parent < r.size) ∧ t.Named) : r.InOrder where
  key_eq k t ht := (h k t ht).1
  children_lt k t ht := (h k t ht).2.1
  parent_lt k t ht := (h k t ht).2.2.1
  named k t ht := (h k t ht).2.2.2

/-- Records stay in order if the scope that changes does: it keeps its key, and has only keys
of scopes written down, and symbols under their names. -/
theorem InOrder.modify (h : r.InOrder) (hs : r.get? i = some s) {f : ScopeRecord → ScopeRecord}
    (hkey : (f s).key = s.key) (hchildren : ∀ child ∈ (f s).children, child < r.size)
    (hparent : ∀ parent, (f s).parent = some parent → parent < r.size) (hnamed : (f s).Named) :
    (r.modify i f).InOrder := by
  refine .of_each fun k t ht => ?_
  rw [size_modify]
  rw [get?_modify] at ht
  by_cases hk : i = k
  · subst hk
    rw [if_pos rfl, hs] at ht
    obtain rfl := Option.some.inj ht
    exact ⟨hkey.trans (h.key_eq i s hs), hchildren, hparent, hnamed⟩
  · rw [if_neg hk] at ht
    exact ⟨h.key_eq k t ht, h.children_lt k t ht, h.parent_lt k t ht, h.named k t ht⟩

/-- What a call must keep: the order, all there was, and the likeness to the arena that is
called the same way. -/
structure Kept (r : Records) (r' : Records) (a : Arena) : Prop where
  inOrder : r'.InOrder
  keptIn : r.KeptIn r'
  plain_eq : r'.plain = a

theorem InOrder.newScope (h : r.InOrder) (kind : ScopeKind) (name : String) :
    Kept r (r.newScope kind name) (r.plain.newScope kind name).1 := by
  have hsize : (r.newScope kind name).size = r.size + 1 := by
    show (r.all ++ [_]).length = _
    rw [List.length_append]
    rfl
  refine ⟨.of_each fun k t ht => ?_, fun k t ht => ?_, ?_⟩
  · rw [hsize]
    rw [get?_newScope] at ht
    by_cases hk : k = r.size
    · rw [if_pos hk] at ht
      obtain rfl := Option.some.inj ht
      have hnamed : ScopeRecord.Named { key := r.size, kind, name } :=
        ⟨fun _ hentry => absurd hentry List.not_mem_nil, List.nodup_nil⟩
      exact ⟨hk.symm, fun _ hchild => absurd hchild List.not_mem_nil,
        fun _ hparent => absurd hparent (Option.some_ne_none _).symm, hnamed⟩
    · rw [if_neg hk] at ht
      exact ⟨h.key_eq k t ht,
        fun child hchild => Nat.lt_succ_of_lt (h.children_lt k t ht child hchild),
        fun parent hparent => Nat.lt_succ_of_lt (h.parent_lt k t ht parent hparent),
        h.named k t ht⟩
  · have hlt := lt_size_of_get? ht
    refine ⟨t, ?_, .refl t⟩
    rw [get?_newScope, if_neg (by omega)]
    exact ht
  · show Arena.mk ((r.all ++ [_]).map _) = Arena.mk (r.all.map _ ++ [_])
    rw [List.map_append]
    rfl

theorem InOrder.declare (h : r.InOrder) (hs : r.get? i = some s) {x : Symbol}
    (hnew : s.symbols.lookup x.name = none) :
    Kept r (r.modify i (·.declare x)) ((r.plain.insert? i x).getD r.plain) := by
  have hnamed := h.named i s hs
  refine ⟨h.modify hs rfl (h.children_lt i s hs) (h.parent_lt i s hs) (hnamed.declare hnew),
    keptIn_modify hs (ScopeRecord.keptIn_declare hnew), ?_⟩
  have hscope : r.plain.get? i = some s.plain := by rw [get?_plain, hs, Option.map_some]
  have hlookup : s.plain.lookup x.name = none := (hnamed.lookup_plain x.name).trans hnew
  rw [Arena.insert?]
  simp only [hscope, hlookup, Option.getD_some]
  exact plain_modify hs (ScopeRecord.plain_declare hnew)

/-- The arena refuses a symbol too. -/
theorem InOrder.insert?_eq_none (h : r.InOrder) (hs : r.get? i = some s) {x old : Symbol}
    (htaken : s.symbols.lookup x.name = some old) : r.plain.insert? i x = none := by
  have hscope : r.plain.get? i = some s.plain := by rw [get?_plain, hs, Option.map_some]
  have hlookup := ((h.named i s hs).lookup_plain x.name).trans htaken
  rw [Arena.insert?]
  simp only [hscope, hlookup]

theorem InOrder.adopt (h : r.InOrder) (hparent : r.get? i = some parent)
    (hchild : r.get? j = some child) :
    Kept r (r.modify i (·.adopt child.key)) (r.plain.addChild i j) := by
  have hkey : child.key = j := h.key_eq j child hchild
  have hlt : child.key < r.size := hkey ▸ lt_size_of_get? hchild
  refine ⟨h.modify hparent rfl (fun c hc => ?_) (h.parent_lt i parent hparent)
    (h.named i parent hparent), keptIn_modify hparent (parent.keptIn_adopt child.key), ?_⟩
  · rcases List.mem_append.mp hc with hold | hone
    · exact h.children_lt i parent hparent c hold
    · rwa [List.mem_singleton.mp hone]
  · rw [hkey]
    exact plain_modify hparent rfl

theorem InOrder.under (h : r.InOrder) (hchild : r.get? j = some child)
    (hparent : r.get? i = some parent) :
    Kept r (r.modify j (·.under parent.key)) (r.plain.setParent j i) := by
  have hkey : parent.key = i := h.key_eq i parent hparent
  have hlt : parent.key < r.size := hkey ▸ lt_size_of_get? hparent
  refine ⟨h.modify hchild rfl (h.children_lt j child hchild) (fun p hp => ?_)
    (h.named j child hchild), keptIn_modify hchild (child.keptIn_under parent.key), ?_⟩
  · rwa [← Option.some.inj hp]
  · rw [hkey]
    exact plain_modify hchild rfl

/-! ## Linking -/

theorem inner?_plain (r : Records) (k : Nat) : r.plain.inner? k = r.inner? k := by
  rw [Arena.inner?, get?_plain, inner?, Option.map_map]
  rfl

theorem childrenOf_plain (h : r.get? i = some s) : r.plain.childrenOf i = s.children := by
  refine Arena.childrenOf_of_inner? ?_
  rw [inner?_plain, inner?, h]
  rfl

theorem InOrder.childrenIn (h : r.InOrder) : r.plain.ChildrenIn := by
  intro key child hchild
  rw [Arena.childrenOf, get?_plain] at hchild
  rw [size_plain]
  cases hs : r.get? key with
  | none =>
    rw [hs] at hchild
    cases hchild
  | some s =>
    rw [hs] at hchild
    exact h.children_lt key s hs child hchild

/-- Linking writes to many scopes, and keeps what one change keeps. -/
theorem links_kept {children : List Nat} (h : Links inner? point r i children r')
    (hr : r.InOrder) (htop : i < r.size) :
    r'.InOrder ∧ r.KeptIn r' ∧ Links Arena.inner? Arena.setParent r.plain i children r'.plain := by
  induction h with
  | done r top => exact ⟨hr, .refl r, .done r.plain top⟩
  | @next r r' r'' top child inner children hchild hinner hrest ihinner ihrest =>
    obtain ⟨parent, hparent⟩ : ∃ s, r.get? top = some s :=
      ⟨r.all[top], List.getElem?_eq_getElem htop⟩
    have hpoint : r.point child top = r.modify child (·.under parent.key) := by
      rw [point, hparent]
    -- The child that is pointed at its parent is a scope: its children are asked for.
    have hlt : child < r.size := by
      obtain ⟨s, hs, -⟩ := Option.map_eq_some_iff.mp hchild
      have hlt := lt_size_of_get? hs
      rwa [hpoint, size_modify] at hlt
    obtain ⟨s, hs⟩ : ∃ s, r.get? child = some s := ⟨r.all[child], List.getElem?_eq_getElem hlt⟩
    have hone := hr.under hs hparent
    rw [← hpoint] at hone
    have hsize : (r.point child top).size = r.size := by rw [hpoint, size_modify]
    obtain ⟨horder, hkept, hlinks⟩ := ihinner hone.inOrder (by rw [hsize]; exact hlt)
    have hsize' : r'.size = r.size := by
      have hkeeps := hlinks.keeps.2
      rw [size_plain, size_plain] at hkeeps
      exact hkeeps.trans hsize
    obtain ⟨horder', hkept', hlinks'⟩ := ihrest horder (by rw [hsize']; exact htop)
    have hinside : (r.plain.setParent child top).inner? child = some inner := by
      rw [← hone.plain_eq, inner?_plain]
      exact hchild
    rw [hone.plain_eq] at hlinks
    exact ⟨horder', (hone.keptIn.trans hkept).trans hkept', .next hinside hlinks hlinks'⟩

theorem InOrder.link (h : r.InOrder) (hs : r.get? i = some s)
    (hends : Links inner? point r i s.children r') : Kept r r' (r.plain.linkBelow i) := by
  have hlt := lt_size_of_get? hs
  obtain ⟨horder, hkept, hlinks⟩ := links_kept hends h hlt
  have hbelow : r.plain.LinksBelow i r'.plain := by
    rw [Arena.LinksBelow, childrenOf_plain hs]
    exact hlinks
  refine ⟨horder, hkept, hbelow.eq_linkBelow h.childrenIn ?_⟩
  rw [size_plain]
  exact hlt

/-! ## Calls -/

theorem inOrder_empty : ({} : Records).InOrder :=
  ⟨fun _ _ h => (by cases h), fun _ _ h => (by cases h), fun _ _ h => (by cases h),
    fun _ _ h => (by cases h)⟩

/-- What one call keeps. -/
theorem Does.kept {call : ScopeCall} (h : r.Does call r') (hr : r.InOrder) :
    Kept r r' (r.plain.after call) := by
  cases h with
  | newScope kind name => exact hr.newScope kind name
  | insert hs hnew => exact hr.declare hs hnew
  | refuse hs htaken =>
    refine ⟨hr, .refl r, ?_⟩
    rw [Arena.after, hr.insert?_eq_none hs htaken]
    rfl
  | addChild hparent hchild => exact hr.adopt hparent hchild
  | setParent hchild hparent => exact hr.under hchild hparent
  | linkBelow hs hends => exact hr.link hs hends

/-- What many calls keep. -/
theorem Runs.kept {calls : List ScopeCall} (h : Runs r calls r') (hr : r.InOrder) :
    Kept r r' (calls.foldl Arena.after r.plain) := by
  induction h with
  | done r => exact ⟨hr, .refl r, rfl⟩
  | next hcall _ ih =>
    have hone := hcall.kept hr
    obtain ⟨horder, hkept, hplain⟩ := ih hone.inOrder
    rw [hone.plain_eq] at hplain
    exact ⟨horder, hone.keptIn.trans hkept, hplain⟩

/-- Whatever calls are made on scopes, from none on: at any point of the run every scope has
its place as its key, all parents and children are keys of scopes, and symbols are under
their own names, no two under one. At any later point every scope is still in its place, of
the same kind and name, and its symbols and children begin with those it had. At both points
the scopes are those of the arena that is called the same way. -/
theorem runs_kept {earlier later : List ScopeCall} (h : Runs {} earlier r) (h' : Runs r later r') :
    r.InOrder ∧ r'.InOrder ∧ r.KeptIn r' ∧
      r.plain = earlier.foldl Arena.after {} ∧
      r'.plain = (earlier ++ later).foldl Arena.after {} := by
  have hearlier := h.kept inOrder_empty
  have hlater := h'.kept hearlier.inOrder
  refine ⟨hearlier.inOrder, hlater.inOrder, hlater.keptIn, hearlier.plain_eq, ?_⟩
  rw [List.foldl_append, hlater.plain_eq, hearlier.plain_eq]
  rfl

/-- A class with a method and a block in it, which is linked only when the method is, by which
time a name of the class has been refused. -/
theorem runs_kept_method :
    let x : Symbol := ⟨"x", .field, 1, 2⟩
    let earlier : List ScopeCall :=
      [.newScope .global "a.ic", .newScope .class_ "A", .insert 1 x, .newScope .method "m",
        .newScope .block "", .addChild 2 3, .addChild 1 2]
    let later : List ScopeCall :=
      [.insert 1 x, .insert 1 ⟨"m", .staticMethod, 6, 3⟩, .insert 3 x, .linkBelow 1, .addChild 0 1,
        .setParent 1 0]
    ∃ r r' : Records, Runs {} earlier r ∧ Runs r later r' ∧
      r.InOrder ∧ r'.InOrder ∧ r.KeptIn r' ∧
      r.plain = earlier.foldl Arena.after {} ∧
      r'.plain = (earlier ++ later).foldl Arena.after {} := by
  intro x earlier later
  have h : ∃ r, Runs {} earlier r ∧ ∃ r', Runs r later r' :=
    ⟨_, .next (.newScope _ _) (.next (.newScope _ _) (.next (.insert rfl rfl)
      (.next (.newScope _ _) (.next (.newScope _ _) (.next (.addChild rfl rfl)
      (.next (.addChild rfl rfl) (.done _))))))),
    _, .next (.refuse rfl rfl) (.next (.insert rfl rfl) (.next (.insert rfl rfl)
      -- Linking goes from the class to its method, and on to the block in it.
      (.next (.linkBelow rfl (.next rfl (.next rfl (.done _ _) (.done _ _)) (.done _ _)))
      (.next (.addChild rfl rfl) (.next (.setParent rfl rfl) (.done _))))))⟩
  obtain ⟨r, hearlier, r', hlater⟩ := h
  exact ⟨r, r', hearlier, hlater, runs_kept hearlier hlater⟩

end Records

end IcFront
