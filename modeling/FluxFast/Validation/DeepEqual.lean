import FluxFast.Theory.Json
import FluxFast.Validation.LargerLimits

/-!
# DeepEqual — the comparison of two object graphs

`deepEqual` remembers for each object of the left graph which object of the right graph it was
compared with.  A graph without cycles spells out a JSON value.  Where no limit is met the answer is
true exactly for graphs of one value in which no number `0` stands against `-0` and no left object
against two right ones.
-/

namespace FluxFast.Validation

open FluxFast.Theory
open FluxFast.Core

section Graphs

variable {R : Type}

/-! ## The JSON value of a graph -/

/-- The keys that `for ... in` gives and that are the object's own. -/
def ownKeys : List KeyRead → Option (List String)
  | [] => some []
  | .own key :: rest => (ownKeys rest).map (key :: ·)
  | .inherited :: rest => ownKeys rest
  | .unreadable :: _ => none

/-- `v` spells out a value, without a cycle and without a read that throws.  The members of an
object stand in the order of `Text.sort`, so that one value is one tree. -/
inductive Represents (heap : Heap R) : Value R → Json String Rat → Prop
  | null : Represents heap .null .null
  | boolean (b : Bool) : Represents heap (.boolean b) (.bool b)
  | number {n : Number} {q : Rat} (h : n.toRat? = some q) : Represents heap (.number n) (.number q)
  | string (s : String) : Represents heap (.string s) (.string s)
  -- an array that answers every index below its length
  | array {r : R} {items : List (Json String Rat)} {item : Nat → Option (Value R)}
      (values : Nat → Value R) (hheap : heap r = .array (some items.length) item)
      (hread : ∀ i < items.length, item i = some (values i))
      (hitems : ∀ i (h : i < items.length), Represents heap (values i) items[i]) :
      Represents heap (.object r) (.array items)
  -- the own keys in their sorted order, each with a value that can be read
  | object {r : R} {members : List (String × Json String Rat)} {forIn : List KeyRead}
      {hasOwn : String → Option Bool} {get : String → Option (Value R)} {keys : List String}
      (values : Nat → Value R) (hheap : heap r = .plain forIn hasOwn get)
      (hkeys : ownKeys forIn = some keys) (hperm : (members.map (·.1)).Perm keys)
      (hsorted : (members.map (·.1)).Pairwise Text.codeUnitLe)
      (hread : ∀ i (h : i < members.length),
        readOwnValue hasOwn get members[i].1 = some (some (values i)))
      (hmembers : ∀ i (h : i < members.length), Represents heap (values i) members[i].2) :
      Represents heap (.object r) (.object members)

/-! ## Positions -/

/-- The length of an array or the sorted keys of an object. -/
def Heap.shape (heap : Heap R) (r : R) : Option (Nat ⊕ List String) :=
  match heap r with
  | .array length _ => length.map .inl
  | .plain forIn _ _ => (ownKeys forIn).map fun keys => .inr (Text.sort keys)
  | .exotic => none

/-- What stands below an object. -/
inductive Below (heap : Heap R) (r : R) : Segment → Value R → Prop
  | item {length i : Nat} {item : Nat → Option (Value R)} {v : Value R}
      (hheap : heap r = .array (some length) item) (hi : i < length) (hitem : item i = some v) :
      Below heap r (.index i) v
  | member {forIn : List KeyRead} {hasOwn : String → Option Bool}
      {get : String → Option (Value R)} {keys : List String} {key : String} {v : Value R}
      (hheap : heap r = .plain forIn hasOwn get) (hkeys : ownKeys forIn = some keys)
      (hkey : key ∈ keys) (hread : readOwnValue hasOwn get key = some (some v)) :
      Below heap r (.key key) v

/-- The pairs of values that the comparison of `a` and `b` comes to: below a pair of objects what
stands at the same position, but nothing below an object that is compared with itself. -/
inductive Reached (heap : Heap R) (a b : Value R) : Value R → Value R → Prop
  | root : Reached heap a b a b
  | step {l r : R} {g : Segment} {x y : Value R} (hpair : Reached heap a b (.object l) (.object r))
      (hne : l ≠ r) (hleft : Below heap l g x) (hright : Below heap r g y) : Reached heap a b x y

/-- No `0` stands against `-0`, and no object of `a` against two objects of `b`. -/
structure Steady (heap : Heap R) (a b : Value R) : Prop where
  zero : ¬Reached heap a b (.number (.finite 0)) (.number .negativeZero)
  negativeZero : ¬Reached heap a b (.number .negativeZero) (.number (.finite 0))
  single : ∀ l r r', Reached heap a b (.object l) (.object r) →
    Reached heap a b (.object l) (.object r') → l ≠ r → l ≠ r' → r = r'

/-- Both objects are arrays of one length or have the same keys, and `E` holds of what stands at the
same position. -/
structure Matched (heap : Heap R) (l r : R) (E : Value R → Value R → Prop) : Prop where
  shape : heap.shape l = heap.shape r
  readable : heap.shape l ≠ none
  below : ∀ g x y, Below heap l g x → Below heap r g y → E x y

theorem Matched.mono {heap : Heap R} {l r : R} {E E' : Value R → Value R → Prop}
    (h : Matched heap l r E) (himp : ∀ x y, E x y → E' x y) : Matched heap l r E' :=
  ⟨h.shape, h.readable, fun g x y hx hy => himp x y (h.below g x y hx hy)⟩

/-- The values are one, or the memory has them as a pair. -/
def Linked (memory : R → Option R) (x y : Value R) : Prop :=
  x = y ∨ ∃ l r, x = .object l ∧ y = .object r ∧ memory l = some r

/-- Every pair in the memory is matched by pairs in it. -/
def Closed (heap : Heap R) (memory : R → Option R) : Prop :=
  ∀ l r, memory l = some r → Matched heap l r (Linked memory)

/-! ## What a closed memory says -/

variable {heap : Heap R} {memory : R → Option R} {a b x y : Value R} {t u : Json String Rat}

theorem shape_array {r : R} {length : Nat} {item : Nat → Option (Value R)}
    (h : heap r = .array (some length) item) : heap.shape r = some (.inl length) := by
  rw [Heap.shape, h]
  rfl

theorem shape_plain {r : R} {forIn : List KeyRead} {hasOwn : String → Option Bool}
    {get : String → Option (Value R)} {keys : List String} (h : heap r = .plain forIn hasOwn get)
    (hkeys : ownKeys forIn = some keys) : heap.shape r = some (.inr (Text.sort keys)) := by
  rw [Heap.shape, h]
  show (ownKeys forIn).map _ = _
  rw [hkeys]
  rfl

/-- The keys of an object that spells out a value are the names of its members. -/
theorem Represents.shape_object {r : R} {members : List (String × Json String Rat)}
    (h : Represents heap (.object r) (.object members)) :
    heap.shape r = some (.inr (members.map (·.1))) := by
  cases h with
  | object values hheap hkeys hperm hsorted hread hmembers =>
    rw [shape_plain hheap hkeys, Text.sort_eq_of_perm hperm hsorted]

/-- What stands below an object that spells out a value, and below one of the same shape. -/
theorem Represents.cases_object {l : R} (h : Represents heap (.object l) t) :
    (∃ items, t = .array items ∧ heap.shape l = some (.inl items.length) ∧
      ∀ i (hi : i < items.length), ∃ v, Below heap l (.index i) v ∧ Represents heap v items[i]) ∨
    (∃ members, t = .object members ∧ heap.shape l = some (.inr (members.map (·.1))) ∧
      ∀ i (hi : i < members.length), ∃ v, Below heap l (.key members[i].1) v ∧
        Represents heap v members[i].2) := by
  cases h with
  | array values hheap hread hitems =>
    refine .inl ⟨_, rfl, shape_array hheap, fun i hi => ⟨values i, ?_, hitems i hi⟩⟩
    exact .item hheap hi (hread i hi)
  | object values hheap hkeys hperm hsorted hread hmembers =>
    have hshape := (Represents.object values hheap hkeys hperm hsorted hread hmembers).shape_object
    refine .inr ⟨_, rfl, hshape, fun i hi => ⟨values i, ?_, hmembers i hi⟩⟩
    refine .member hheap hkeys (hperm.mem_iff.mp ?_) (hread i hi)
    exact List.mem_map_of_mem (List.getElem_mem hi)

theorem Below.unique {r : R} {g : Segment} {v v' : Value R} (h : Below heap r g v)
    (h' : Below heap r g v') : v = v' := by
  cases h with
  | item hheap hi hitem =>
    cases h' with
    | item hheap' hi' hitem' =>
      cases hheap.symm.trans hheap'
      exact Option.some.inj (hitem.symm.trans hitem')
  | member hheap hkeys hkey hread =>
    cases h' with
    | member hheap' hkeys' hkey' hread' =>
      cases hheap.symm.trans hheap'
      exact Option.some.inj (Option.some.inj (hread.symm.trans hread'))

/-- One position of two objects that spell out one value. -/
theorem represents_below {l r : R} {g : Segment} (hl : Represents heap (.object l) t)
    (hr : Represents heap (.object r) t) (hx : Below heap l g x) (hy : Below heap r g y) :
    ∃ u, Represents heap x u ∧ Represents heap y u := by
  -- both references stand for the same tree, so their kinds agree
  rcases hl.cases_object with ⟨items, rfl, hshape, hitems⟩ | ⟨members, rfl, hshape, hmembers⟩
  · cases hx with
    | member hheap hkeys hkey hread =>
      rw [shape_plain hheap hkeys] at hshape
      cases hshape
    | item hheap hi hitem =>
      rw [shape_array hheap] at hshape
      cases hshape
      rcases hr.cases_object with ⟨_, heq, -, hitems'⟩ | ⟨_, heq, -⟩
      · cases heq
        obtain ⟨v, hv, hrepresents⟩ := hitems _ hi
        obtain ⟨v', hv', hrepresents'⟩ := hitems' _ hi
        rw [← hv.unique (.item hheap hi hitem), ← hv'.unique hy]
        exact ⟨_, hrepresents, hrepresents'⟩
      · cases heq
  · cases hx with
    | item hheap hi hitem =>
      rw [shape_array hheap] at hshape
      cases hshape
    | @member _ _ _ keys key _ hheap hkeys hkey hread =>
      rw [shape_plain hheap hkeys] at hshape
      have hnames : Text.sort keys = members.map (·.1) := Sum.inr.inj (Option.some.inj hshape)
      have hmem : key ∈ members.map (·.1) := hnames ▸ Text.mem_sort.mpr hkey
      -- the key read is the name of a member, at one place in both
      obtain ⟨i, hi, hname⟩ := List.mem_iff_getElem.mp hmem
      rw [List.length_map] at hi
      rw [List.getElem_map] at hname
      rcases hr.cases_object with ⟨_, heq, -⟩ | ⟨_, heq, -, hmembers'⟩
      · cases heq
      · cases heq
        obtain ⟨v, hv, hrepresents⟩ := hmembers i hi
        obtain ⟨v', hv', hrepresents'⟩ := hmembers' i hi
        rw [hname] at hv hv'
        rw [← hv.unique (.member hheap hkeys hkey hread), ← hv'.unique hy]
        exact ⟨_, hrepresents, hrepresents'⟩

/-- Two graphs of one value are compared at values that are the same, too. -/
theorem represents_reached (ha : Represents heap a t) (hb : Represents heap b t)
    (h : Reached heap a b x y) : ∃ u, Represents heap x u ∧ Represents heap y u := by
  induction h with
  | root => exact ⟨t, ha, hb⟩
  | step hpair hne hleft hright ih =>
    obtain ⟨u, hl, hr⟩ := ih
    exact represents_below hl hr hleft hright

/-- A pair of objects is linked when they are one object or matched. -/
theorem Linked.object {l r : R} (hclosed : Closed heap memory)
    (h : Linked memory (.object l) (.object r)) :
    heap.shape l = heap.shape r ∧
      ∀ g x y, Below heap l g x → Below heap r g y → Linked memory x y := by
  rcases h with h | ⟨l', r', hl, hr, hmemory⟩
  · cases h
    exact ⟨rfl, fun g x y hx hy => .inl (hx.unique hy)⟩
  · cases hl
    cases hr
    have hmatched := hclosed l r hmemory
    exact ⟨hmatched.shape, hmatched.below⟩

theorem Linked.leaf (h : Linked memory x y) (hx : ∀ l, x ≠ .object l) : x = y :=
  h.resolve_right fun ⟨l, _, hl, _⟩ => hx l hl

theorem Linked.of_object {l : R} (h : Linked memory (.object l) y) : ∃ r, y = .object r := by
  rcases h with h | ⟨_, r, _, hr, _⟩
  · exact ⟨l, h.symm⟩
  · exact ⟨r, hr⟩

/-- A closed memory links only graphs of one value; the induction is on the first of them. -/
theorem same_of_linked (hclosed : Closed heap memory) (hx : Represents heap x t)
    (hy : Represents heap y u) (h : Linked memory x y) : t = u := by
  -- induction on the first value; the second one is linked to it piece by piece
  induction hx generalizing y u with
  | null =>
    cases h.leaf nofun
    cases hy
    rfl
  | boolean b =>
    cases h.leaf nofun
    cases hy
    rfl
  | number hn =>
    cases h.leaf nofun
    cases hy with
    | number hn' => rw [Option.some.inj (hn.symm.trans hn')]
  | string s =>
    cases h.leaf nofun
    cases hy
    rfl
  -- two arrays linked have one length, and their items are linked
  | array values hheap hread hitems ih =>
    obtain ⟨r, rfl⟩ := h.of_object
    obtain ⟨hshape, hbelow⟩ := h.object hclosed
    rw [shape_array hheap] at hshape
    rcases hy.cases_object with ⟨items', rfl, hshape', hitems'⟩ | ⟨_, rfl, hshape', -⟩
    · have hlength := Sum.inl.inj (Option.some.inj (hshape.trans hshape'))
      refine congrArg Json.array (List.ext_getElem hlength fun i hi hi' => ?_)
      obtain ⟨v, hv, hrepresents⟩ := hitems' i hi'
      exact ih i hi hrepresents (hbelow _ _ _ (.item hheap hi (hread i hi)) hv)
    · cases hshape.trans hshape'
  -- two objects linked have the same sorted names, and their values are linked
  | @object _ members _ _ _ _ values hheap hkeys hperm hsorted hread hmembers ih =>
    obtain ⟨r, rfl⟩ := h.of_object
    obtain ⟨hshape, hbelow⟩ := h.object hclosed
    rw [(Represents.object values hheap hkeys hperm hsorted hread hmembers).shape_object] at hshape
    rcases hy.cases_object with ⟨_, rfl, hshape', -⟩ | ⟨members', rfl, hshape', hmembers'⟩
    · cases hshape.trans hshape'
    · have hnames := Sum.inr.inj (Option.some.inj (hshape.trans hshape'))
      have hlength : members.length = members'.length := by
        simpa only [List.length_map] using congrArg List.length hnames
      refine congrArg Json.object (List.ext_getElem hlength fun i hi hi' => ?_)
      have hname : members[i].1 = members'[i].1 := by
        simpa only [List.getElem?_map, List.getElem?_eq_getElem hi, List.getElem?_eq_getElem hi',
          Option.map_some, Option.some.injEq] using congrArg (·[i]?) hnames
      obtain ⟨v, hv, hrepresents⟩ := hmembers' i hi'
      refine Prod.ext hname (ih i hi hrepresents (hbelow (.key members'[i].1) _ _ ?_ hv))
      rw [← hname]
      refine .member hheap hkeys (hperm.mem_iff.mp ?_) (hread i hi)
      exact List.mem_map_of_mem (List.getElem_mem hi)

/-- What the comparison comes to is linked where its start is. -/
theorem linked_of_reached (hclosed : Closed heap memory) (hab : Linked memory a b)
    (h : Reached heap a b x y) : Linked memory x y := by
  induction h with
  | root => exact hab
  | step hpair hne hleft hright ih => exact (ih.object hclosed).2 _ _ _ hleft hright

theorem steady_of_linked (hclosed : Closed heap memory) (hab : Linked memory a b) :
    Steady heap a b := by
  have hmemory : ∀ l r, Reached heap a b (.object l) (.object r) → l ≠ r → memory l = some r := by
    intro l r hreached hne
    rcases linked_of_reached hclosed hab hreached with h | ⟨l', r', hl, hr, h⟩
    · cases h
      exact absurd rfl hne
    · cases hl
      cases hr
      exact h
  constructor
  · intro h
    cases (linked_of_reached hclosed hab h).leaf nofun
  · intro h
    cases (linked_of_reached hclosed hab h).leaf nofun
  · intro l r r' h h' hne hne'
    exact Option.some.inj ((hmemory l r h hne).symm.trans (hmemory l r' h' hne'))

/-! ## Computations that meet no limit -/

/-- Where no limit is met the answer is one of `P`. -/
structure Quiet {α : Type} (x : Evaluation R α) (P : α → Prop) : Prop where
  met : ∀ s, s.limitsMet ≤ (x s).2.limitsMet
  answer : ∀ s, (x s).2.limitsMet = s.limitsMet → P (x s).1

section Quiet

variable {α β : Type} {P : α → Prop} {Q : β → Prop} {path : Path} {c : Context R}

theorem Quiet.pure {a : α} (h : P a) : Quiet (Pure.pure a : Evaluation R α) P :=
  ⟨fun _ => Nat.le_refl _, fun _ _ => h⟩

theorem Quiet.mono {x : Evaluation R α} {P' : α → Prop} (h : Quiet x P) (himp : ∀ a, P a → P' a) :
    Quiet x P' :=
  ⟨h.met, fun s hs => himp _ (h.answer s hs)⟩

theorem Quiet.bind {x : Evaluation R α} {f : α → Evaluation R β} (hx : Quiet x P)
    (hf : ∀ a, Quiet (f a) fun b => P a → Q b) : Quiet (x >>= f) Q where
  met s := Nat.le_trans (hx.met s) ((hf _).met _)
  answer s hs := by
    have hfirst := hx.met s
    have hsecond := (hf (x s).1).met (x s).2
    rw [Work.bind_apply] at hs ⊢
    exact (hf _).answer _ (by omega) (hx.answer s (by omega))

/-- The same, where the second computation is looked at only after a first answer of `P`. -/
theorem Quiet.bind_of {x : Evaluation R α} {f : α → Evaluation R β} (hx : Quiet x P)
    (hmet : ∀ a s, s.limitsMet ≤ (f a s).2.limitsMet) (hf : ∀ a, P a → Quiet (f a) Q) :
    Quiet (x >>= f) Q :=
  hx.bind fun a => ⟨hmet a, fun s hs ha => (hf a ha).answer s hs⟩

/-- A computation that met a limit. -/
theorem quiet_limit {x : Evaluation R α} (h : ∀ s, s.limitsMet < (x s).2.limitsMet) : Quiet x P :=
  ⟨fun s => (h s).le, fun s hs => absurd hs (h s).ne'⟩

/-- An operation is spent, or a limit is met. -/
theorem quiet_consume {d : α} {x : Evaluation R α} (h : Quiet x P) :
    Quiet (consumeOperation c path >>= fun spent => if !spent then Pure.pure d else x) P := by
  have hconsume : Quiet (consumeOperation c path) (· = true) := by
    refine ⟨keeps_consumeOperation.met, fun s hs => ?_⟩
    unfold consumeOperation at hs ⊢
    split
    · next hspent =>
      rw [if_pos hspent] at hs
      exact absurd hs (Nat.succ_ne_self _)
    · rfl
  refine hconsume.bind fun spent => ?_
  cases spent with
  | true => exact h.mono fun a ha _ => ha
  | false => exact .pure fun hfalse => absurd hfalse nofun

theorem quiet_reject {d : α} {code message : String} :
    Quiet (do Work.change .meet; addIssue path code message; return d : Evaluation R α) P :=
  quiet_limit fun s => Nat.lt_of_lt_of_le (Nat.lt_succ_self _) (keeps_addIssue.met s.meet)

/-! ## The pairs below a pair -/

theorem quiet_readKeysLoop (forIn : List KeyRead) (keys : List String) :
    Quiet (readKeysLoop c path forIn keys) fun r => r =
      match ownKeys forIn with
      | some own => .ok (Text.sort (keys ++ own))
      | none => .error .read := by
  induction forIn generalizing keys with
  | nil => exact .pure (congrArg (fun ks => Except.ok (Text.sort ks)) (List.append_nil _).symm)
  | cons first rest ih =>
    cases first with
    | own key =>
      apply quiet_consume
      split
      · exact quiet_reject
      · refine (ih (keys ++ [key])).mono fun r hr => ?_
        rw [hr, ownKeys]
        cases ownKeys rest with
        | none => rfl
        | some own => exact congrArg (fun ks => Except.ok (Text.sort ks)) (List.append_assoc _ _ _)
    | inherited => exact ih keys
    | unreadable => exact .pure rfl

theorem quiet_readKeys (forIn : List KeyRead) :
    Quiet (readKeys c forIn path) fun r => r =
      match ownKeys forIn with
      | some own => .ok (Text.sort own)
      | none => .error .read :=
  quiet_consume (quiet_readKeysLoop forIn [])

/-- The pairs in `children` are the ones in `below`. -/
structure Paired (below : Value R → Value R → Prop) (children : List (EqualPair R)) : Prop where
  sound : ∀ p ∈ children, below p.left p.right
  complete : ∀ x y, below x y → ∃ p ∈ children, p.left = x ∧ p.right = y

theorem quiet_pushItems (left right : Nat → Option (Value R)) (count : Nat)
    (pending : List (EqualPair R)) :
    Quiet (pushItems c left right path count pending) fun r =>
      (∀ new, r = some new → ∃ children, new = children ++ pending ∧
        Paired (fun x y => ∃ i < count, left i = some x ∧ right i = some y) children) ∧
      ((∀ i < count, (left i).isSome ∧ (right i).isSome) → r.isSome) := by
  -- induction on the count: the last item is pushed first, so the first one is on top
  induction count generalizing pending with
  | zero =>
    refine .pure ⟨fun new h => ⟨[], (Option.some.inj h).symm, ⟨nofun, ?_⟩⟩, fun _ => rfl⟩
    rintro x y ⟨i, hi, -⟩
    exact absurd hi (Nat.not_lt_zero i)
  | succ index ih =>
    apply quiet_consume
    split
    -- both items can be read, and the pair joins the children
    · next l r hl hr =>
      refine (ih _).mono fun result ⟨hsome, hreadable⟩ => ⟨fun new h => ?_, fun h => ?_⟩
      · obtain ⟨children, rfl, hchildren⟩ := hsome new h
        refine ⟨children ++ [⟨l, r, path ++ [.index index]⟩], ?_, ⟨?_, ?_⟩⟩
        · rw [List.append_assoc]
          rfl
        · intro p hp
          rcases List.mem_append.mp hp with hp | hp
          · obtain ⟨i, hi, hread⟩ := hchildren.sound p hp
            exact ⟨i, Nat.lt_succ_of_lt hi, hread⟩
          · rw [List.mem_singleton.mp hp]
            exact ⟨index, Nat.lt_succ_self _, hl, hr⟩
        · rintro x y ⟨i, hi, hx, hy⟩
          rcases Nat.lt_succ_iff_lt_or_eq.mp hi with hi | rfl
          · obtain ⟨p, hp, hpair⟩ := hchildren.complete x y ⟨i, hi, hx, hy⟩
            exact ⟨p, List.mem_append_left _ hp, hpair⟩
          · refine ⟨_, List.mem_append_right _ (List.mem_singleton_self _), ?_⟩
            exact ⟨Option.some.inj (hl.symm.trans hx), Option.some.inj (hr.symm.trans hy)⟩
      · exact hreadable fun i hi => h i (Nat.lt_succ_of_lt hi)
    -- one of the two cannot be read
    · next hnone =>
      refine .pure ⟨nofun, fun h => ?_⟩
      obtain ⟨hl, hr⟩ := h index (Nat.lt_succ_self _)
      obtain ⟨l, hl⟩ := Option.isSome_iff_exists.mp hl
      obtain ⟨r, hr⟩ := Option.isSome_iff_exists.mp hr
      exact absurd hr (hnone l r hl)

theorem quiet_pushMembers (left right : String → Option (Option (Value R)))
    (keys : List (String × String)) (pending : List (EqualPair R)) :
    Quiet (pushMembers c left right path keys pending) fun r =>
      (∀ new, r = some new → (∀ k ∈ keys, k.1 = k.2) ∧ ∃ children, new = children ++ pending ∧
        Paired (fun x y => ∃ k ∈ keys, left k.1 = some (some x) ∧ right k.1 = some (some y))
          children) ∧
      ((∀ k ∈ keys, k.1 = k.2 ∧ (∃ x, left k.1 = some (some x)) ∧ ∃ y, right k.1 = some (some y)) →
        r.isSome) := by
  -- induction on the keys
  induction keys generalizing pending with
  | nil =>
    refine .pure ⟨fun new h => ⟨List.forall_mem_nil _, [], (Option.some.inj h).symm,
      ⟨List.forall_mem_nil _, ?_⟩⟩, fun _ => rfl⟩
    rintro x y ⟨k, hk, -⟩
    exact absurd hk List.not_mem_nil
  | cons first rest ih =>
    obtain ⟨leftKey, rightKey⟩ := first
    unfold pushMembers
    split
    -- the keys differ at this place, which ends the comparison
    · next hne =>
      exact .pure ⟨fun _ h => (by cases h), fun h => absurd (h _ List.mem_cons_self).1 hne⟩
    · next hkeys =>
      have hkeys : leftKey = rightKey := not_not.mp hkeys
      apply quiet_consume
      split
      · next l r hl hr =>
        refine (ih _).mono fun result ⟨hsome, hreadable⟩ => ⟨fun new h => ?_, fun h => ?_⟩
        · obtain ⟨hrest, children, rfl, hchildren⟩ := hsome new h
          refine ⟨List.forall_mem_cons.mpr ⟨hkeys, hrest⟩,
            children ++ [⟨l, r, path ++ [.key leftKey]⟩], ?_, ⟨?_, ?_⟩⟩
          · rw [List.append_assoc]
            rfl
          · intro p hp
            rcases List.mem_append.mp hp with hp | hp
            · obtain ⟨k, hk, hread⟩ := hchildren.sound p hp
              exact ⟨k, List.mem_cons_of_mem _ hk, hread⟩
            · rw [List.mem_singleton.mp hp]
              exact ⟨_, List.mem_cons_self, hl, hr⟩
          · rintro x y ⟨k, hk, hx, hy⟩
            rcases List.mem_cons.mp hk with rfl | hk
            · refine ⟨_, List.mem_append_right _ (List.mem_singleton_self _), ?_, ?_⟩
              · exact Option.some.inj (Option.some.inj (hl.symm.trans hx))
              · exact Option.some.inj (Option.some.inj (hr.symm.trans hy))
            · obtain ⟨p, hp, hpair⟩ := hchildren.complete x y ⟨k, hk, hx, hy⟩
              exact ⟨p, List.mem_append_left _ hp, hpair⟩
        · exact hreadable fun k hk => h k (List.mem_cons_of_mem _ hk)
      -- a value on one of the two sides cannot be read
      · next hnone =>
        refine .pure ⟨fun _ h => (by cases h), fun h => ?_⟩
        obtain ⟨-, ⟨x, hx⟩, y, hy⟩ := h _ List.mem_cons_self
        exact absurd hy (hnone x y hx)

theorem Paired.congr {below below' : Value R → Value R → Prop} {children : List (EqualPair R)}
    (h : Paired below children) (hiff : ∀ x y, below x y ↔ below' x y) : Paired below' children :=
  ⟨fun p hp => (hiff _ _).mp (h.sound p hp), fun x y hxy => h.complete x y ((hiff x y).mpr hxy)⟩

/-- What an object pair adds to the pending pairs: all that stands at the same position. -/
def Expanded (heap : Heap R) (l r : R) (pending : List (EqualPair R))
    (result : Option (List (EqualPair R))) : Prop :=
  (∀ new, result = some new → heap.shape l = heap.shape r ∧ heap.shape l ≠ none ∧
    ∃ children, new = children ++ pending ∧
      Paired (fun x y => ∃ g, Below heap l g x ∧ Below heap r g y) children) ∧
  ∀ t, Represents heap (.object l) t → Represents heap (.object r) t → result.isSome

theorem quiet_expandArrays {l r : R} {length length' : Option Nat}
    {item item' : Nat → Option (Value R)} (hl : c.heap l = .array length item)
    (hr : c.heap r = .array length' item') (pending : List (EqualPair R)) :
    Quiet (expandPair c l r path pending) (Expanded c.heap l r pending) := by
  unfold expandPair
  rw [hl, hr]
  apply quiet_consume
  split
  · next length length' =>
    -- the second consumption refuses, or the lengths are compared
    split
    · exact quiet_reject
    split
    · next hne =>
      refine .pure ⟨nofun, fun t ht ht' => absurd ?_ hne⟩
      rcases ht.cases_object with ⟨items, rfl, hshape, -⟩ | ⟨members, rfl, hshape, -⟩
      · rcases ht'.cases_object with ⟨_, heq, hshape', -⟩ | ⟨_, heq, -⟩
        · cases heq
          rw [shape_array hl] at hshape
          rw [shape_array hr] at hshape'
          exact Sum.inl.inj (Option.some.inj (hshape.trans hshape'.symm))
        · cases heq
      · rw [shape_array hl] at hshape
        cases hshape
    -- the same length: what is pushed are the items at the same index
    · next hlength =>
      have hlength : length = length' := not_not.mp hlength
      refine (quiet_pushItems item item' length pending).mono fun result ⟨hsome, hreadable⟩ => ?_
      refine ⟨fun new h => ?_, fun t ht ht' => hreadable fun i hi => ?_⟩
      · obtain ⟨children, hnew, hchildren⟩ := hsome new h
        refine ⟨?_, ?_, children, hnew, hchildren.congr fun x y => ⟨?_, ?_⟩⟩
        · rw [shape_array hl, shape_array hr, hlength]
        · rw [shape_array hl]
          nofun
        · rintro ⟨i, hi, hx, hy⟩
          exact ⟨.index i, .item hl hi hx, .item hr (hlength ▸ hi) hy⟩
        · rintro ⟨g, hx, hy⟩
          cases hx with
          | item hheap hi hitem =>
            cases hl.symm.trans hheap
            cases hy with
            | item hheap' hi' hitem' =>
              cases hr.symm.trans hheap'
              exact ⟨_, hi, hitem, hitem'⟩
          | member hheap => cases hl.symm.trans hheap
      · -- every item of an array that spells out a value is read
        have hread : ∀ {o : R} {count : Nat} {read : Nat → Option (Value R)},
            c.heap o = .array (some count) read → Represents c.heap (.object o) t →
            i < count → (read i).isSome := by
          intro o count read ho hrepresents hi
          cases hrepresents with
          | array values hheap hread _ =>
            cases ho.symm.trans hheap
            rw [hread i hi]
            rfl
          | object values hheap => cases ho.symm.trans hheap
        exact ⟨hread hl ht hi, hread hr ht' (hlength ▸ hi)⟩
  -- a length that cannot be read represents nothing
  · next hnone =>
    refine .pure ⟨nofun, fun t ht ht' => ?_⟩
    have hlength : ∀ {o : R} {length : Option Nat} {read : Nat → Option (Value R)},
        c.heap o = .array length read → Represents c.heap (.object o) t →
        ∃ count, length = some count := by
      intro o length read ho hrepresents
      cases hrepresents with
      | array values hheap _ _ =>
        cases ho.symm.trans hheap
        exact ⟨_, rfl⟩
      | object values hheap => cases ho.symm.trans hheap
    obtain ⟨count, hcount⟩ := hlength hl ht
    obtain ⟨count', hcount'⟩ := hlength hr ht'
    exact (hnone count count' hcount hcount').elim

theorem zip_eq_of_same {α : Type} {as bs : List α} (hlength : as.length = bs.length)
    (h : ∀ k ∈ as.zip bs, k.1 = k.2) : as = bs := by
  induction as generalizing bs with
  | nil => exact (List.length_eq_zero_iff.mp hlength.symm).symm
  | cons a as ih =>
    cases bs with
    | nil => cases hlength
    | cons b bs =>
      have hhead : a = b := h (a, b) List.mem_cons_self
      rw [hhead, ih (Nat.succ.inj hlength) fun k hk => h k (List.mem_cons_of_mem _ hk)]

theorem mem_zip_self {α : Type} {as : List α} {k : α × α} : k ∈ as.zip as ↔ k.1 = k.2 ∧ k.1 ∈ as := by
  rw [← List.map_id as, List.zip_map', List.map_id]
  constructor
  · intro h
    obtain ⟨a, ha, rfl⟩ := List.mem_map.mp h
    exact ⟨rfl, ha⟩
  · rintro ⟨heq, hmem⟩
    exact List.mem_map.mpr ⟨k.1, hmem, Prod.ext rfl heq⟩

theorem quiet_expandObjects {l r : R} {forIn forIn' : List KeyRead}
    {hasOwn hasOwn' : String → Option Bool} {get get' : String → Option (Value R)}
    (hl : c.heap l = .plain forIn hasOwn get) (hr : c.heap r = .plain forIn' hasOwn' get')
    (pending : List (EqualPair R)) :
    Quiet (expandPair c l r path pending) (Expanded c.heap l r pending) := by
  unfold expandPair
  rw [hl, hr]
  refine (quiet_readKeys forIn).bind fun leftKeys => (quiet_readKeys forIn').bind fun rightKeys => ?_
  -- the keys are those of the members where both graphs spell out a value
  have hkeys : ∀ {o : R} {forIn : List KeyRead} {hasOwn : String → Option Bool}
      {get : String → Option (Value R)} {members : List (String × Json String Rat)},
      c.heap o = .plain forIn hasOwn get →
      Represents c.heap (.object o) (.object members) →
      ∃ keys, ownKeys forIn = some keys ∧ Text.sort keys = members.map (·.1) ∧
        ∀ k ∈ members.map (·.1), ∃ v, readOwnValue hasOwn get k = some (some v) := by
    intro o forIn hasOwn get members ho hrepresents
    cases hrepresents with
    | object values hheap hkeys hperm hsorted hread _ =>
      cases ho.symm.trans hheap
      refine ⟨_, hkeys, Text.sort_eq_of_perm hperm hsorted, fun k hk => ?_⟩
      obtain ⟨i, hi, rfl⟩ := List.mem_iff_getElem.mp hk
      rw [List.length_map] at hi
      rw [List.getElem_map]
      exact ⟨_, hread i hi⟩
  have hobject : ∀ {t : Json String Rat}, Represents c.heap (.object l) t →
      ∃ members, t = .object members := by
    intro t ht
    cases ht with
    | array values hheap => cases hl.symm.trans hheap
    | object values hheap => exact ⟨_, rfl⟩
  split
  · next leftKeys rightKeys =>
    split
    · next hne =>
      refine .pure fun hrightKeys hleftKeys => ⟨nofun, fun t ht ht' => absurd ?_ hne⟩
      obtain ⟨members, rfl⟩ := hobject ht
      obtain ⟨keys, hown, hsort, -⟩ := hkeys hl ht
      obtain ⟨keys', hown', hsort', -⟩ := hkeys hr ht'
      rw [hown] at hleftKeys
      rw [hown'] at hrightKeys
      rw [Except.ok.inj hleftKeys, Except.ok.inj hrightKeys, hsort, hsort']
    · next hlength =>
      have hlength : leftKeys.length = rightKeys.length := not_not.mp hlength
      refine (quiet_pushMembers _ _ _ pending).mono fun result ⟨hsome, hreadable⟩ => ?_
      intro hrightKeys hleftKeys
      have hown : ∀ {forIn : List KeyRead} {sorted : List String},
          Except.ok sorted = (match ownKeys forIn with
            | some own => .ok (Text.sort own)
            | none => .error ReadKeysError.read) →
          ∃ own, ownKeys forIn = some own ∧ sorted = Text.sort own := by
        intro forIn sorted h
        cases hforIn : ownKeys forIn with
        | none =>
          rw [hforIn] at h
          cases h
        | some own =>
          rw [hforIn] at h
          exact ⟨own, rfl, Except.ok.inj h⟩
      obtain ⟨own, hleft, rfl⟩ := hown hleftKeys
      obtain ⟨own', hright, rfl⟩ := hown hrightKeys
      refine ⟨fun new h => ?_, fun t ht ht' => hreadable fun k hk => ?_⟩
      · obtain ⟨hsame, children, hnew, hchildren⟩ := hsome new h
        have heq : Text.sort own = Text.sort own' :=
          zip_eq_of_same hlength fun k hk => hsame k (List.mem_reverse.mpr hk)
        refine ⟨?_, ?_, children, hnew, hchildren.congr fun x y => ⟨?_, ?_⟩⟩
        · rw [shape_plain hl hleft, shape_plain hr hright, heq]
        · rw [shape_plain hl hleft]
          nofun
        · rintro ⟨k, hk, hx, hy⟩
          rw [List.mem_reverse, ← heq, mem_zip_self] at hk
          refine ⟨.key k.1, .member hl hleft (Text.mem_sort.mp hk.2) hx, ?_⟩
          exact .member hr hright (Text.mem_sort.mp (heq ▸ hk.2)) hy
        · rintro ⟨g, hx, hy⟩
          cases hx with
          | item hheap => cases hl.symm.trans hheap
          | @member _ _ _ _ key _ hheap hown hkey hread =>
            cases hl.symm.trans hheap
            cases hleft.symm.trans hown
            cases hy with
            | member hheap' hown' hkey' hread' =>
              cases hr.symm.trans hheap'
              refine ⟨(key, key), ?_, hread, hread'⟩
              rw [List.mem_reverse, ← heq, mem_zip_self]
              exact ⟨rfl, Text.mem_sort.mpr hkey⟩
      · obtain ⟨members, rfl⟩ := hobject ht
        obtain ⟨keys, hown, hsort, hread⟩ := hkeys hl ht
        obtain ⟨keys', hown', hsort', hread'⟩ := hkeys hr ht'
        cases hleft.symm.trans hown
        cases hright.symm.trans hown'
        rw [hsort, hsort', List.mem_reverse, mem_zip_self] at hk
        exact ⟨hk.1, hread _ hk.2, hread' _ hk.2⟩
  · next hnone =>
    refine .pure fun hrightKeys hleftKeys => ⟨nofun, fun t ht ht' => ?_⟩
    obtain ⟨members, rfl⟩ := hobject ht
    obtain ⟨keys, hown, -⟩ := hkeys hl ht
    obtain ⟨keys', hown', -⟩ := hkeys hr ht'
    rw [hown] at hleftKeys
    rw [hown'] at hrightKeys
    exact (hnone _ _ hleftKeys hrightKeys).elim

/-- Objects that spell out one value are both arrays or both plain. -/
theorem represents_kinds {l r : R} (hl : Represents heap (.object l) t)
    (hr : Represents heap (.object r) t) :
    (∃ length length' item item', heap l = .array length item ∧ heap r = .array length' item') ∨
    (∃ forIn forIn' hasOwn hasOwn' get get', heap l = .plain forIn hasOwn get ∧
      heap r = .plain forIn' hasOwn' get') := by
  cases hl with
  | array values hheap =>
    cases hr with
    | array values' hheap' => exact .inl ⟨_, _, _, _, hheap, hheap'⟩
  | object values hheap =>
    cases hr with
    | object values' hheap' => exact .inr ⟨_, _, _, _, _, _, hheap, hheap'⟩

theorem quiet_expandPair (l r : R) (pending : List (EqualPair R)) :
    Quiet (expandPair c l r path pending) (Expanded c.heap l r pending) := by
  -- two references of different kinds represent nothing in common
  have hmismatch : (∀ t, Represents c.heap (.object l) t → Represents c.heap (.object r) t → False) →
      expandPair c l r path pending = Pure.pure none →
      Quiet (expandPair c l r path pending) (Expanded c.heap l r pending) := by
    intro hkinds heq
    rw [heq]
    exact .pure ⟨nofun, fun t ht ht' => (hkinds t ht ht').elim⟩
  -- otherwise the kind of each side decides which branch is taken
  by_cases hboth : ∃ t, Represents c.heap (.object l) t ∧ Represents c.heap (.object r) t
  · obtain ⟨t, ht, ht'⟩ := hboth
    rcases represents_kinds ht ht' with ⟨_, _, _, _, hl, hr⟩ | ⟨_, _, _, _, _, _, hl, hr⟩
    · exact quiet_expandArrays hl hr pending
    · exact quiet_expandObjects hl hr pending
  · cases hl : c.heap l with
    | array length item =>
      cases hr : c.heap r with
      | array length' item' => exact quiet_expandArrays hl hr pending
      | _ =>
        refine hmismatch (fun t ht ht' => hboth ⟨t, ht, ht'⟩) ?_
        unfold expandPair
        rw [hl, hr]
    | plain forIn hasOwn get =>
      cases hr : c.heap r with
      | plain forIn' hasOwn' get' => exact quiet_expandObjects hl hr pending
      | _ =>
        refine hmismatch (fun t ht ht' => hboth ⟨t, ht, ht'⟩) ?_
        unfold expandPair
        rw [hl, hr]
    | exotic =>
      refine hmismatch (fun t ht ht' => hboth ⟨t, ht, ht'⟩) ?_
      unfold expandPair
      rw [hl]

/-! ## The loop -/

variable [DecidableEq R]

/-- The pairs in the memory are matched by linked and by pending pairs. -/
def Closes (heap : Heap R) (pending : List (EqualPair R)) (seen : List (R × R)) : Prop :=
  ∀ l r, seen.lookup l = some r → Matched heap l r fun x y =>
    Linked (seen.lookup ·) x y ∨ ∃ p ∈ pending, p.left = x ∧ p.right = y

/-- The memory when a comparison is over that found no difference. -/
structure Remembers (heap : Heap R) (pending : List (EqualPair R)) (seen : List (R × R))
    (memory : R → Option R) : Prop where
  closed : Closed heap memory
  seen : ∀ l r, seen.lookup l = some r → memory l = some r
  pending : ∀ p ∈ pending, Linked memory p.left p.right

/-- What a comparison says that answers `equal`. -/
def Concludes (heap : Heap R) (pending : List (EqualPair R)) (seen : List (R × R)) (equal : Bool) :
    Prop :=
  equal = true → Closes heap pending seen → ∃ memory, Remembers heap pending seen memory

omit [DecidableEq R] in
theorem Linked.mono {memory memory' : R → Option R} {x y : Value R} (h : Linked memory x y)
    (himp : ∀ l r, memory l = some r → memory' l = some r) : Linked memory' x y :=
  h.imp id fun ⟨l, r, hl, hr, hmemory⟩ => ⟨l, r, hl, hr, himp l r hmemory⟩

/-- A pair that is linked is one less to compare. -/
theorem concludes_linked {pair : EqualPair R} {pending : List (EqualPair R)} {seen : List (R × R)}
    {equal : Bool} (hlinked : Linked (seen.lookup ·) pair.left pair.right)
    (h : Concludes c.heap pending seen equal) : Concludes c.heap (pair :: pending) seen equal := by
  intro hequal hcloses
  have hcloses' : Closes c.heap pending seen := fun l r hseen =>
    (hcloses l r hseen).mono fun x y hxy => by
      rcases hxy with hxy | ⟨p, hp, rfl, rfl⟩
      · exact .inl hxy
      · rcases List.mem_cons.mp hp with rfl | hp
        · exact .inl hlinked
        · exact .inr ⟨p, hp, rfl, rfl⟩
  obtain ⟨memory, hmemory⟩ := h hequal hcloses'
  exact ⟨memory, hmemory.closed, hmemory.seen,
    List.forall_mem_cons.mpr ⟨hlinked.mono hmemory.seen, hmemory.pending⟩⟩

/-- A new pair of objects is kept in memory, and what is below it is still to compare. -/
theorem concludes_expanded {l r : R} {path : Path} {pending new : List (EqualPair R)}
    {seen : List (R × R)} {equal : Bool} (hnew : seen.lookup l = none)
    (hexpanded : Expanded c.heap l r pending (some new))
    (h : Concludes c.heap new ((l, r) :: seen) equal) :
    Concludes c.heap (⟨.object l, .object r, path⟩ :: pending) seen equal := by
  intro hequal hcloses
  obtain ⟨hshape, hreadable, children, rfl, hchildren⟩ := hexpanded.1 new rfl
  -- the pair just added hides no older one
  have hkept : ∀ l' r', seen.lookup l' = some r' → ((l, r) :: seen).lookup l' = some r' := by
    intro l' r' hseen
    have hne : (l' == l) = false := beq_false_of_ne fun heq => by
      rw [heq, hnew] at hseen
      cases hseen
    rw [List.lookup_cons, hne]
    exact hseen
  have hself : ((l, r) :: seen).lookup l = some r := by
    rw [List.lookup_cons, beq_self_eq_true]
  -- the new memory closes over its own pair, whose children are pending now
  have hcloses' : Closes c.heap (children ++ pending) ((l, r) :: seen) := by
    intro l' r' hlookup
    by_cases heq : l' = l
    · subst heq
      cases hself.symm.trans hlookup
      refine ⟨hshape, hreadable, fun g x y hx hy => .inr ?_⟩
      obtain ⟨p, hp, hpair⟩ := hchildren.complete x y ⟨g, hx, hy⟩
      exact ⟨p, List.mem_append_left _ hp, hpair⟩
    · rw [List.lookup_cons, beq_false_of_ne heq] at hlookup
      refine (hcloses l' r' hlookup).mono fun x y hxy => ?_
      rcases hxy with hxy | ⟨p, hp, rfl, rfl⟩
      · exact .inl (hxy.mono hkept)
      · rcases List.mem_cons.mp hp with rfl | hp
        · exact .inl (.inr ⟨l, r, rfl, rfl, hself⟩)
        · exact .inr ⟨p, List.mem_append_right _ hp, rfl, rfl⟩
  obtain ⟨memory, hmemory⟩ := h hequal hcloses'
  refine ⟨memory, hmemory.closed, fun l' r' hseen => hmemory.seen l' r' (hkept l' r' hseen), ?_⟩
  refine List.forall_mem_cons.mpr ⟨.inr ⟨l, r, rfl, rfl, hmemory.seen l r hself⟩, fun p hp => ?_⟩
  exact hmemory.pending p (List.mem_append_right _ hp)

theorem quiet_deepEqualStep {next : List (EqualPair R) → List (R × R) → Evaluation R Bool}
    (hnext : ∀ pending seen, Quiet (next pending seen) (Concludes c.heap pending seen))
    (pair : EqualPair R) (pending : List (EqualPair R)) (seen : List (R × R)) :
    Quiet (deepEqualStep c next pair pending seen) (Concludes c.heap (pair :: pending) seen) := by
  obtain ⟨left, right, path⟩ := pair
  apply quiet_consume
  split
  -- the very same value on both sides
  · next heq => exact (hnext pending seen).mono fun _ h => concludes_linked (.inl heq) h
  · cases left <;> cases right <;> try exact .pure nofun
    next l r _ =>
      dsimp only
      split
      · exact .pure nofun
      · split
        -- a reference met before must meet its old partner
        · next previous hseen =>
          split
          · exact .pure nofun
          · next hsame =>
            obtain rfl := not_not.mp hsame
            exact (hnext pending seen).mono fun _ h =>
              concludes_linked (.inr ⟨l, previous, rfl, rfl, hseen⟩) h
        -- a new pair is remembered before its children are compared
        · next hseen =>
          refine (quiet_expandPair l r pending).bind fun expanded => ?_
          cases expanded with
          | none => exact .pure fun _ => nofun
          | some new =>
            exact (hnext new ((l, r) :: seen)).mono fun _ h hexpanded =>
              concludes_expanded hseen hexpanded h

omit [DecidableEq R] in
theorem quiet_exhaust {P : Bool → Prop} :
    Quiet (do
      Work.change fun s : EvaluationState R => { s.exhaust path with
        operations := max s.operations c.compiled.limits.maxOperations }
      return false) P :=
  quiet_limit fun _ => Nat.lt_succ_self _

theorem quiet_deepEqualLoop (fuel : Nat) (pending : List (EqualPair R)) (seen : List (R × R)) :
    Quiet (deepEqualLoop c fuel pending seen) (Concludes c.heap pending seen) := by
  have hdone : ∀ seen, Concludes c.heap [] seen true := fun seen _ hcloses =>
    ⟨(seen.lookup ·), fun l r hseen => (hcloses l r hseen).mono fun x y hxy =>
      hxy.resolve_right fun ⟨_, hp, _⟩ => List.not_mem_nil hp, fun _ _ h => h, nofun⟩
  induction fuel generalizing pending seen with
  | zero =>
    cases pending with
    | nil => exact .pure (hdone seen)
    | cons pair pending => exact quiet_exhaust
  | succ fuel ih =>
    cases pending with
    | nil => exact .pure (hdone seen)
    | cons pair pending => exact quiet_deepEqualStep ih pair pending seen

/-! ## Graphs of one value -/

/-- The pairs that are pending and in memory are some that the comparison of `a` and `b` comes to. -/
structure Within (heap : Heap R) (a b : Value R) (pending : List (EqualPair R))
    (seen : List (R × R)) : Prop where
  pending : ∀ p ∈ pending, Reached heap a b p.left p.right
  seen : ∀ l r, seen.lookup l = some r → Reached heap a b (.object l) (.object r) ∧ l ≠ r

omit [DecidableEq R] in
/-- Values that spell out one value are the same, `0` and `-0`, or objects of one kind. -/
theorem same_cases (hx : Represents heap x t) (hy : Represents heap y t) :
    x = y ∨ (x = .number (.finite 0) ∧ y = .number .negativeZero) ∨
      (x = .number .negativeZero ∧ y = .number (.finite 0)) ∨
      ∃ l r, x = .object l ∧ y = .object r ∧ heap.isArray l = heap.isArray r := by
  -- what is represented decides the kind; only the zeros are two values of one number
  cases hx with
  | null =>
    cases hy
    exact .inl rfl
  | boolean b =>
    cases hy
    exact .inl rfl
  | string s =>
    cases hy
    exact .inl rfl
  | @number n q hn =>
    cases hy with
    | @number n' _ hn' =>
      cases n <;> cases n' <;> simp_all [Number.toRat?]
  | array values hheap hread hitems =>
    have hleft := Represents.array values hheap hread hitems
    cases hy with
    | array values' hheap' hread' hitems' =>
      refine .inr (.inr (.inr ⟨_, _, rfl, rfl, ?_⟩))
      rw [Heap.isArray, Heap.isArray, hheap, hheap']
  | object values hheap =>
    cases hy with
    | object values' hheap' =>
      refine .inr (.inr (.inr ⟨_, _, rfl, rfl, ?_⟩))
      rw [Heap.isArray, Heap.isArray, hheap, hheap']

theorem within_expanded {l r : R} {path : Path} {pending new : List (EqualPair R)}
    {seen : List (R × R)} (hwithin : Within heap a b (⟨.object l, .object r, path⟩ :: pending) seen)
    (hne : l ≠ r) (hexpanded : Expanded heap l r pending (some new)) :
    Within heap a b new ((l, r) :: seen) := by
  have hreached : Reached heap a b (.object l) (.object r) :=
    hwithin.pending _ List.mem_cons_self
  obtain ⟨-, -, children, rfl, hchildren⟩ := hexpanded.1 new rfl
  refine ⟨fun p hp => ?_, fun l' r' hlookup => ?_⟩
  · rcases List.mem_append.mp hp with hp | hp
    · obtain ⟨g, hx, hy⟩ := hchildren.sound p hp
      exact .step hreached hne hx hy
    · exact hwithin.pending p (List.mem_cons_of_mem _ hp)
  · by_cases heq : l' = l
    · subst heq
      rw [List.lookup_cons, beq_self_eq_true] at hlookup
      cases hlookup
      exact ⟨hreached, hne⟩
    · rw [List.lookup_cons, beq_false_of_ne heq] at hlookup
      exact hwithin.seen l' r' hlookup

theorem quiet_sameStep {next : List (EqualPair R) → List (R × R) → Evaluation R Bool}
    (ha : Represents c.heap a t) (hb : Represents c.heap b t) (hsteady : Steady c.heap a b)
    (hmet : ∀ pending seen s, s.limitsMet ≤ (next pending seen s).2.limitsMet)
    (hnext : ∀ pending seen, Within c.heap a b pending seen → Quiet (next pending seen) (· = true))
    {pair : EqualPair R} {pending : List (EqualPair R)} {seen : List (R × R)}
    (hwithin : Within c.heap a b (pair :: pending) seen) :
    Quiet (deepEqualStep c next pair pending seen) (· = true) := by
  obtain ⟨left, right, path⟩ := pair
  -- what is pending stays reached from the two values
  have htail : Within c.heap a b pending seen :=
    ⟨fun p hp => hwithin.pending p (List.mem_cons_of_mem _ hp), hwithin.seen⟩
  have hreached : Reached c.heap a b left right := hwithin.pending _ List.mem_cons_self
  obtain ⟨u, hx, hy⟩ := represents_reached ha hb hreached
  apply quiet_consume
  rcases same_cases hx hy with rfl | ⟨rfl, rfl⟩ | ⟨rfl, rfl⟩ | ⟨l, r, rfl, rfl, hkind⟩
  · rw [if_pos rfl]
    exact hnext pending seen htail
  · exact absurd hreached hsteady.zero
  · exact absurd hreached hsteady.negativeZero
  · split
    · exact hnext pending seen htail
    · next hne =>
      have hne : l ≠ r := fun h => hne (congrArg _ h)
      dsimp only
      rw [if_neg (not_not.mpr hkind)]
      split
      -- the partner met before is the same, since each reference has one
      · next previous hseen =>
        obtain ⟨hprevious, hdiffers⟩ := hwithin.seen l previous hseen
        have hsame : previous = r := hsteady.single l _ _ hprevious hreached hdiffers hne
        rw [if_neg (not_not.mpr hsame)]
        exact hnext pending seen htail
      -- the pair is expanded, and its children are reached as it was
      · refine (quiet_expandPair l r pending).bind_of (fun expanded s => ?_) fun expanded h => ?_
        · cases expanded with
          | none => exact Nat.le_refl _
          | some new => exact hmet new _ s
        · cases expanded with
          | none => cases h.2 u hx hy
          | some new => exact hnext new _ (within_expanded hwithin hne h)

theorem quiet_sameLoop (ha : Represents c.heap a t) (hb : Represents c.heap b t)
    (hsteady : Steady c.heap a b) (fuel : Nat) {pending : List (EqualPair R)} {seen : List (R × R)}
    (hwithin : Within c.heap a b pending seen) :
    Quiet (deepEqualLoop c fuel pending seen) (· = true) := by
  induction fuel generalizing pending seen with
  | zero =>
    cases pending with
    | nil => exact .pure rfl
    | cons pair pending => exact quiet_exhaust
  | succ fuel ih =>
    cases pending with
    | nil => exact .pure rfl
    | cons pair pending =>
      exact quiet_sameStep ha hb hsteady (fun pending seen => (quiet_deepEqualLoop fuel _ _).met)
        (fun _ _ => ih) hwithin

/-! ## The comparison -/

variable {s : EvaluationState R}

/-- An answer `true` leaves a memory in which the two values are linked. -/
theorem linked_of_deepEqual (hquiet : (deepEqual c a b path s).2.limitsMet = s.limitsMet)
    (h : (deepEqual c a b path s).1 = true) :
    ∃ memory, Closed c.heap memory ∧ Linked memory a b := by
  obtain ⟨memory, hmemory⟩ := (quiet_deepEqualLoop _ _ _).answer s hquiet h nofun
  exact ⟨memory, hmemory.closed, hmemory.pending _ List.mem_cons_self⟩

/-- Two graphs are compared as their values, but for a `0` against `-0` and for an object that
stands against two others. -/
theorem deepEqual_iff_same_iff (ha : Represents c.heap a t) (hb : Represents c.heap b u)
    (hquiet : (deepEqual c a b path s).2.limitsMet = s.limitsMet) :
    ((deepEqual c a b path s).1 = true ↔ t = u) ↔ (t = u → Steady c.heap a b) := by
  constructor
  · rintro hiff rfl
    obtain ⟨memory, hclosed, hlinked⟩ := linked_of_deepEqual hquiet (hiff.mpr rfl)
    exact steady_of_linked hclosed hlinked
  · refine fun hsteady => ⟨fun h => ?_, ?_⟩
    · obtain ⟨memory, hclosed, hlinked⟩ := linked_of_deepEqual hquiet h
      exact same_of_linked hclosed ha hb hlinked
    · rintro rfl
      have hwithin : Within c.heap a b [⟨a, b, path⟩] [] :=
        ⟨List.forall_mem_singleton.mpr .root, nofun⟩
      exact (quiet_sameLoop ha hb (hsteady rfl) _ hwithin).answer s hquiet

end Quiet

end Graphs

/-! ## Shared objects -/

/-- `[x, x]`, `[y, z]` and `[0]`, `[-0]`, with `{}` for `x`, `y` and `z`. -/
def sharedHeap : Heap Nat
  | 0 => .array (some 2) fun _ => some (.object 4)
  | 1 => .array (some 2) fun i => some (.object (5 + i))
  | 2 => .array (some 1) fun _ => some (.number (.finite 0))
  | 3 => .array (some 1) fun _ => some (.number .negativeZero)
  | _ => .plain [] (fun _ => some false) fun _ => some .undefined

def sharedContext : Context Nat :=
  ⟨plainHost, sharedHeap, ⟨.boolean true, [], limitsOf 8 100⟩⟩

def sharedState : EvaluationState Nat := { primaryCollector := ⟨100, []⟩ }

theorem sharedHeap_empty (r : Nat) : Represents sharedHeap (.object (r + 4)) (.object []) :=
  .object (fun _ => .undefined) rfl rfl (.refl _) .nil nofun nofun

/-- Two graphs of `[{}, {}]`; in the first one the two objects are one. -/
theorem sharedHeap_pair : Represents sharedHeap (.object 0) (.array [.object [], .object []]) ∧
    Represents sharedHeap (.object 1) (.array [.object [], .object []]) := by
  have hitems : ∀ (values : Nat → Nat) (i : Nat) (h : i < 2),
      Represents sharedHeap (.object (values i + 4)) [Json.object [], Json.object []][i] := by
    intro values i h
    match i, h with
    | 0, _ => exact sharedHeap_empty _
    | 1, _ => exact sharedHeap_empty _
  constructor
  · exact .array (fun _ => .object 4) rfl (fun _ _ => rfl) (hitems fun _ => 0)
  · exact .array (fun i => .object (5 + i)) rfl (fun _ _ => rfl) fun i h => by
      rw [show 5 + i = (i + 1) + 4 by omega]
      exact hitems (· + 1) i h

theorem sharedHeap_zero : Represents sharedHeap (.object 2) (.array [.number 0]) ∧
    Represents sharedHeap (.object 3) (.array [.number 0]) := by
  constructor
  · refine .array (fun _ => .number (.finite 0)) rfl (fun _ _ => rfl) fun i h => ?_
    obtain rfl := Nat.lt_one_iff.mp h
    exact .number rfl
  · refine .array (fun _ => .number .negativeZero) rfl (fun _ _ => rfl) fun i h => ?_
    obtain rfl := Nat.lt_one_iff.mp h
    exact .number rfl

/-- `[y, z]` and `[x, x]` are compared as equal where the second graph is the shared one. -/
theorem deepEqual_iff_same_iff_shared :
    (deepEqual sharedContext (.object 1) (.object 0) [] sharedState).1 = true ∧
      Steady sharedHeap (.object 1) (.object 0) := by
  have hquiet : (deepEqual sharedContext (.object 1) (.object 0) [] sharedState).2.limitsMet =
      sharedState.limitsMet := by
    decide
  have hiff := deepEqual_iff_same_iff sharedHeap_pair.2 sharedHeap_pair.1 hquiet
  have htrue : (deepEqual sharedContext (.object 1) (.object 0) [] sharedState).1 = true := by
    decide
  exact ⟨htrue, hiff.mp (iff_of_true htrue rfl) rfl⟩

/-- They are not, the other way round, and neither are `[0]` and `[-0]`. -/
theorem deepEqual_shared_differs : ∃ t u,
    (Represents sharedHeap (.object 0) t ∧ Represents sharedHeap (.object 1) t ∧
      (deepEqual sharedContext (.object 0) (.object 1) [] sharedState).2.limitsMet =
        sharedState.limitsMet ∧
      (deepEqual sharedContext (.object 0) (.object 1) [] sharedState).1 = false) ∧
    Represents sharedHeap (.object 2) u ∧ Represents sharedHeap (.object 3) u ∧
      (deepEqual sharedContext (.object 2) (.object 3) [] sharedState).2.limitsMet =
        sharedState.limitsMet ∧
      (deepEqual sharedContext (.object 2) (.object 3) [] sharedState).1 = false :=
  ⟨_, _, ⟨sharedHeap_pair.1, sharedHeap_pair.2, by decide, by decide⟩,
    sharedHeap_zero.1, sharedHeap_zero.2, by decide, by decide⟩

end FluxFast.Validation
