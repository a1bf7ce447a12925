import FluxFast.Theory.JsonText
import FluxFast.Theory.OrderedMap
import Mathlib.Order.MinMax

/-!
# JsonChecked — values with checked leaves, and values with one member for each name

`convert` translates the strings and the numbers of a value, where each of them can be translated.
`dedupe` keeps the last member of each name, at the place of the first.  `every_of_read` says what
the lexicon promises about the leaves of a value that was read.
-/

namespace FluxFast.Theory

namespace Json

variable {σ ν σ' ν' : Type}

/-! ## Checked leaves -/

section Convert

variable (f : σ → Option σ') (g : ν → Option ν')

mutual

def convert : Json σ ν → Option (Json σ' ν')
  | .null => some .null
  | .bool b => some (.bool b)
  | .number n => (g n).map .number
  | .string s => (f s).map .string
  | .array items => (convertItems items).map .array
  | .object members => (convertMembers members).map .object

def convertItems : List (Json σ ν) → Option (List (Json σ' ν'))
  | [] => some []
  | item :: items => item.convert.bind fun i => (convertItems items).map (i :: ·)

def convertMembers : List (σ × Json σ ν) → Option (List (σ' × Json σ' ν'))
  | [] => some []
  | (key, value) :: members => (f key).bind fun k =>
    value.convert.bind fun v => (convertMembers members).map ((k, v) :: ·)

end

end Convert

section Every

variable (p : σ → Prop) (q : ν → Prop)

mutual

/-- Every string, the names among them, satisfies `p`, and every number `q`. -/
def Every : Json σ ν → Prop
  | .number n => q n
  | .string s => p s
  | .array items => ItemsEvery items
  | .object members => MembersEvery members
  | _ => True

def ItemsEvery : List (Json σ ν) → Prop
  | [] => True
  | item :: items => item.Every ∧ ItemsEvery items

def MembersEvery : List (σ × Json σ ν) → Prop
  | [] => True
  | (key, value) :: members => p key ∧ value.Every ∧ MembersEvery members

end

variable {p q}

theorem membersEvery_iff {members : List (σ × Json σ ν)} :
    MembersEvery p q members ↔ ∀ m ∈ members, p m.1 ∧ m.2.Every p q := by
  induction members with
  | nil => exact iff_of_true trivial nofun
  | cons member members ih =>
    obtain ⟨key, value⟩ := member
    rw [MembersEvery, List.forall_mem_cons, ih, and_assoc]

theorem itemsEvery_iff {items : List (Json σ ν)} :
    ItemsEvery p q items ↔ ∀ i ∈ items, i.Every p q := by
  induction items with
  | nil => exact iff_of_true trivial nofun
  | cons item items ih => rw [ItemsEvery, List.forall_mem_cons, ih]

mutual

/-- Whatever holds of the strings and numbers among the tokens holds of the value. -/
theorem every_of_tokens (j : Json σ ν) (hp : ∀ s, .string s ∈ j.tokens → p s)
    (hq : ∀ n, .number n ∈ j.tokens → q n) : j.Every p q := by
  cases j with
  | null => trivial
  | bool b => trivial
  | number n => exact hq n (List.mem_singleton_self _)
  | string s => exact hp s (List.mem_singleton_self _)
  | array items =>
    cases items with
    | nil => trivial
    | cons item items =>
      refine ⟨every_of_tokens item (fun s hs => hp s ?_) fun n hn => hq n ?_,
        every_of_moreItems items (fun s hs => hp s ?_) fun n hn => hq n ?_⟩
      all_goals simp [tokens, itemTokens, *]
  | object members =>
    cases members with
    | nil => trivial
    | cons member members =>
      obtain ⟨key, value⟩ := member
      refine ⟨hp key ?_, every_of_tokens value (fun s hs => hp s ?_) fun n hn => hq n ?_,
        every_of_moreMembers members (fun s hs => hp s ?_) fun n hn => hq n ?_⟩
      all_goals simp [tokens, memberTokens, *]

theorem every_of_moreItems (items : List (Json σ ν))
    (hp : ∀ s, .string s ∈ moreItemTokens items → p s)
    (hq : ∀ n, .number n ∈ moreItemTokens items → q n) : ItemsEvery p q items := by
  cases items with
  | nil => trivial
  | cons item items =>
    refine ⟨every_of_tokens item (fun s hs => hp s ?_) fun n hn => hq n ?_,
      every_of_moreItems items (fun s hs => hp s ?_) fun n hn => hq n ?_⟩
    all_goals simp [moreItemTokens, *]

theorem every_of_moreMembers (members : List (σ × Json σ ν))
    (hp : ∀ s, .string s ∈ moreMemberTokens members → p s)
    (hq : ∀ n, .number n ∈ moreMemberTokens members → q n) : MembersEvery p q members := by
  cases members with
  | nil => trivial
  | cons member members =>
    obtain ⟨key, value⟩ := member
    refine ⟨hp key ?_, every_of_tokens value (fun s hs => hp s ?_) fun n hn => hq n ?_,
      every_of_moreMembers members (fun s hs => hp s ?_) fun n hn => hq n ?_⟩
    all_goals simp [moreMemberTokens, *]

end

end Every

section Mapped

variable {σ'' ν'' : Type}

mutual

theorem map_map (f : σ → σ') (g : ν → ν') (f' : σ' → σ'') (g' : ν' → ν'') (j : Json σ ν) :
    (j.map f g).map f' g' = j.map (f' ∘ f) (g' ∘ g) := by
  cases j with
  | null | bool | number | string => rfl
  | array items => exact congrArg Json.array (mapItems_map f g f' g' items)
  | object members => exact congrArg Json.object (mapMembers_map f g f' g' members)

theorem mapItems_map (f : σ → σ') (g : ν → ν') (f' : σ' → σ'') (g' : ν' → ν'')
    (items : List (Json σ ν)) :
    mapItems f' g' (mapItems f g items) = mapItems (f' ∘ f) (g' ∘ g) items := by
  cases items with
  | nil => rfl
  | cons item items =>
    rw [mapItems, mapItems, mapItems, map_map f g f' g' item, mapItems_map f g f' g' items]

theorem mapMembers_map (f : σ → σ') (g : ν → ν') (f' : σ' → σ'') (g' : ν' → ν'')
    (members : List (σ × Json σ ν)) :
    mapMembers f' g' (mapMembers f g members) = mapMembers (f' ∘ f) (g' ∘ g) members := by
  cases members with
  | nil => rfl
  | cons member members =>
    obtain ⟨key, value⟩ := member
    rw [mapMembers, mapMembers, mapMembers, map_map f g f' g' value,
      mapMembers_map f g f' g' members]
    rfl

end

end Mapped

section Combine

variable {p p' p'' : σ → Prop} {q q' q'' : ν → Prop}

mutual

/-- What follows from two properties of the leaves. -/
theorem Every.combine (hp : ∀ s, p s → p' s → p'' s) (hq : ∀ n, q n → q' n → q'' n)
    (j : Json σ ν) (h : j.Every p q) (h' : j.Every p' q') : j.Every p'' q'' := by
  cases j with
  | null => trivial
  | bool b => trivial
  | number n => exact hq n h h'
  | string s => exact hp s h h'
  | array items => exact ItemsEvery.combine hp hq items h h'
  | object members => exact MembersEvery.combine hp hq members h h'

theorem ItemsEvery.combine (hp : ∀ s, p s → p' s → p'' s) (hq : ∀ n, q n → q' n → q'' n)
    (items : List (Json σ ν)) (h : ItemsEvery p q items) (h' : ItemsEvery p' q' items) :
    ItemsEvery p'' q'' items := by
  cases items with
  | nil => trivial
  | cons item items =>
    exact ⟨Every.combine hp hq item h.1 h'.1, ItemsEvery.combine hp hq items h.2 h'.2⟩

theorem MembersEvery.combine (hp : ∀ s, p s → p' s → p'' s) (hq : ∀ n, q n → q' n → q'' n)
    (members : List (σ × Json σ ν)) (h : MembersEvery p q members)
    (h' : MembersEvery p' q' members) : MembersEvery p'' q'' members := by
  cases members with
  | nil => trivial
  | cons member members =>
    obtain ⟨key, value⟩ := member
    exact ⟨hp key h.1 h'.1, Every.combine hp hq value h.2.1 h'.2.1,
      MembersEvery.combine hp hq members h.2.2 h'.2.2⟩

end

theorem Every.mono (hp : ∀ s, p s → p' s) (hq : ∀ n, q n → q' n) {j : Json σ ν}
    (h : j.Every p q) : j.Every p' q' :=
  Every.combine (fun s hs _ => hp s hs) (fun n hn _ => hq n hn) j h h

end Combine

section Converted

variable {f : σ → Option σ'} {g : ν → Option ν'} {f' : σ' → σ} {g' : ν' → ν}

mutual

/-- What can be translated back is what was translated. -/
theorem map_of_convert (hf : ∀ s t, f s = some t → f' t = s) (hg : ∀ n m, g n = some m → g' m = n)
    (j : Json σ ν) {w : Json σ' ν'} (h : j.convert f g = some w) : w.map f' g' = j := by
  cases j with
  | null =>
    cases h
    rfl
  | bool b =>
    cases h
    rfl
  | number n =>
    obtain ⟨m, hm, rfl⟩ := Option.map_eq_some_iff.mp h
    exact congrArg Json.number (hg n m hm)
  | string s =>
    obtain ⟨t, ht, rfl⟩ := Option.map_eq_some_iff.mp h
    exact congrArg Json.string (hf s t ht)
  | array items =>
    obtain ⟨ws, hws, rfl⟩ := Option.map_eq_some_iff.mp h
    exact congrArg Json.array (mapItems_of_convert hf hg items hws)
  | object members =>
    obtain ⟨ws, hws, rfl⟩ := Option.map_eq_some_iff.mp h
    exact congrArg Json.object (mapMembers_of_convert hf hg members hws)

theorem mapItems_of_convert (hf : ∀ s t, f s = some t → f' t = s)
    (hg : ∀ n m, g n = some m → g' m = n) (items : List (Json σ ν)) {ws : List (Json σ' ν')}
    (h : convertItems f g items = some ws) : mapItems f' g' ws = items := by
  cases items with
  | nil =>
    cases h
    rfl
  | cons item items =>
    obtain ⟨w, hw, hrest⟩ := Option.bind_eq_some_iff.mp h
    obtain ⟨ws', hws', rfl⟩ := Option.map_eq_some_iff.mp hrest
    rw [mapItems, map_of_convert hf hg item hw, mapItems_of_convert hf hg items hws']

theorem mapMembers_of_convert (hf : ∀ s t, f s = some t → f' t = s)
    (hg : ∀ n m, g n = some m → g' m = n) (members : List (σ × Json σ ν))
    {ws : List (σ' × Json σ' ν')} (h : convertMembers f g members = some ws) :
    mapMembers f' g' ws = members := by
  cases members with
  | nil =>
    cases h
    rfl
  | cons member members =>
    obtain ⟨key, value⟩ := member
    obtain ⟨k, hk, hrest⟩ := Option.bind_eq_some_iff.mp h
    obtain ⟨w, hw, hrest⟩ := Option.bind_eq_some_iff.mp hrest
    obtain ⟨ws', hws', rfl⟩ := Option.map_eq_some_iff.mp hrest
    rw [mapMembers, hf key k hk, map_of_convert hf hg value hw,
      mapMembers_of_convert hf hg members hws']

end

mutual

theorem convert_isSome_iff (j : Json σ ν) : (j.convert f g).isSome ↔
    j.Every (fun s => (f s).isSome) fun n => (g n).isSome := by
  cases j with
  | null => exact iff_of_true rfl trivial
  | bool b => exact iff_of_true rfl trivial
  | number n => rw [convert, Option.isSome_map, Every]
  | string s => rw [convert, Option.isSome_map, Every]
  | array items => rw [convert, Option.isSome_map, Every, convertItems_isSome_iff]
  | object members => rw [convert, Option.isSome_map, Every, convertMembers_isSome_iff]

theorem convertItems_isSome_iff (items : List (Json σ ν)) : (convertItems f g items).isSome ↔
    ItemsEvery (fun s => (f s).isSome) (fun n => (g n).isSome) items := by
  cases items with
  | nil => exact iff_of_true rfl trivial
  | cons item items =>
    rw [ItemsEvery, ← convert_isSome_iff item, ← convertItems_isSome_iff items, convertItems]
    cases item.convert f g with
    | none => simp
    | some i => simp

theorem convertMembers_isSome_iff (members : List (σ × Json σ ν)) :
    (convertMembers f g members).isSome ↔
      MembersEvery (fun s => (f s).isSome) (fun n => (g n).isSome) members := by
  cases members with
  | nil => exact iff_of_true rfl trivial
  | cons member members =>
    obtain ⟨key, value⟩ := member
    rw [MembersEvery, ← convert_isSome_iff value, ← convertMembers_isSome_iff members,
      convertMembers]
    cases f key with
    | none => simp
    | some k =>
      cases value.convert f g with
      | none => simp
      | some v => simp

end

end Converted

/-! ## Leaves that were read -/

section Read

variable {L : Lexicon σ ν}

/-- The lexicon made the token. -/
def Made (L : Lexicon σ ν) : Token σ ν → Prop
  | .string s => ∃ units, L.text units = some s
  | .number n => ∃ word, L.number word = some n
  | _ => True

namespace Lexer

theorem made_start {c : Char} {s : List (Token σ ν) × Lexer} (h : start c = some s) :
    ∀ t ∈ s.1, Made L t := by
  unfold start at h
  split_ifs at h
  all_goals
    cases h
    simp [Made]

theorem made_classify {word : List Char} {t : Token σ ν} (h : classify L word = some t) :
    Made L t := by
  unfold classify at h
  split_ifs at h
  · cases h
    trivial
  · cases h
    trivial
  · cases h
    trivial
  · obtain ⟨n, hn, rfl⟩ := Option.map_eq_some_iff.mp h
    exact ⟨word, hn⟩

theorem made_step {l : Lexer} {c : Char} {s : List (Token σ ν) × Lexer}
    (h : step L l c = some s) : ∀ t ∈ s.1, Made L t := by
  -- by the state: only the end of a word or of a text makes a token
  cases l with
  | blank => exact made_start h
  | word chars =>
    rw [step] at h
    split at h
    · cases h
      exact fun t ht => absurd ht List.not_mem_nil
    · obtain ⟨t, ht, hrest⟩ := Option.bind_eq_some_iff.mp h
      obtain ⟨s', hs', rfl⟩ := Option.map_eq_some_iff.mp hrest
      intro u hu
      rcases List.mem_cons.mp hu with rfl | hu
      · exact made_classify ht
      · exact made_start hs' u hu
  | text units =>
    rw [step] at h
    split_ifs at h
    · obtain ⟨str, hstr, rfl⟩ := Option.map_eq_some_iff.mp h
      intro t ht
      rw [List.mem_singleton.mp ht]
      exact ⟨units, hstr⟩
    · cases h
      exact fun t ht => absurd ht List.not_mem_nil
    · cases h
      exact fun t ht => absurd ht List.not_mem_nil
  | escape units =>
    rw [step] at h
    split at h
    · cases h
      exact fun t ht => absurd ht List.not_mem_nil
    · obtain ⟨u, hu, rfl⟩ := Option.map_eq_some_iff.mp h
      exact fun t ht => absurd ht List.not_mem_nil
  | unicode units digits value =>
    obtain ⟨d, hd, rfl⟩ := Option.map_eq_some_iff.mp h
    intro t ht
    split at ht
    · exact absurd ht List.not_mem_nil
    · exact absurd ht List.not_mem_nil

theorem made_run {l : Lexer} {cs : List Char} {ts : List (Token σ ν)} (h : l.run L cs = some ts) :
    ∀ t ∈ ts, Made L t := by
  induction cs generalizing l ts with
  | nil =>
    cases l with
    | blank =>
      cases h
      exact fun t ht => absurd ht List.not_mem_nil
    | word chars =>
      obtain ⟨t, ht, rfl⟩ := Option.map_eq_some_iff.mp h
      intro u hu
      rw [List.mem_singleton.mp hu]
      exact made_classify ht
    | text units => cases h
    | escape units => cases h
    | unicode units digits value => cases h
  | cons c cs ih =>
    obtain ⟨s, hs, hrest⟩ := Option.bind_eq_some_iff.mp h
    obtain ⟨ts', hts', rfl⟩ := Option.map_eq_some_iff.mp hrest
    intro t ht
    rcases List.mem_append.mp ht with ht | ht
    · exact made_step hs t ht
    · exact ih hts' t ht

end Lexer

/-- What holds of all that the lexicon makes holds of the leaves of a value that was read. -/
theorem every_of_read {p : σ → Prop} {q : ν → Prop} {cs : List Char} {j : Json σ ν}
    (h : read L cs = some j) (hp : ∀ units s, L.text units = some s → p s)
    (hq : ∀ word n, L.number word = some n → q n) : j.Every p q := by
  obtain ⟨ts, hts, hparse⟩ := Option.bind_eq_some_iff.mp h
  have hmade : ∀ t ∈ j.tokens, Made L t := by
    rw [← parse_eq_some_iff.mp hparse]
    exact Lexer.made_run hts
  refine every_of_tokens j (fun s hs => ?_) fun n hn => ?_
  · obtain ⟨units, hunits⟩ := hmade _ hs
    exact hp units s hunits
  · obtain ⟨word, hword⟩ := hmade _ hn
    exact hq word n hword

end Read

/-! ## One member for each name -/

section Dedupe

variable [DecidableEq σ]

mutual

def dedupe : Json σ ν → Json σ ν
  | .array items => .array (dedupeItems items)
  | .object members => .object (OrderedMap.ofList (dedupeMembers members)).entries
  | j => j

def dedupeItems : List (Json σ ν) → List (Json σ ν)
  | [] => []
  | item :: items => item.dedupe :: dedupeItems items

def dedupeMembers : List (σ × Json σ ν) → List (σ × Json σ ν)
  | [] => []
  | (key, value) :: members => (key, value.dedupe) :: dedupeMembers members

end

omit [DecidableEq σ] in
theorem membersDepth_le_iff {members : List (σ × Json σ ν)} {n : Nat} :
    membersDepth members ≤ n ↔ ∀ m ∈ members, m.2.depth ≤ n := by
  induction members with
  | nil => exact iff_of_true (Nat.zero_le n) nofun
  | cons member members ih =>
    obtain ⟨key, value⟩ := member
    rw [membersDepth, max_le_iff, List.forall_mem_cons, ih]

theorem itemsDistinct_iff {items : List (Json σ ν)} :
    itemsDistinct items = true ↔ ∀ i ∈ items, i.distinct = true := by
  induction items with
  | nil => exact iff_of_true rfl nofun
  | cons item items ih => rw [itemsDistinct, Bool.and_eq_true, List.forall_mem_cons, ih]

theorem membersDistinct_iff {members : List (σ × Json σ ν)} :
    membersDistinct members = true ↔ ∀ m ∈ members, m.2.distinct = true := by
  induction members with
  | nil => exact iff_of_true rfl nofun
  | cons member members ih =>
    obtain ⟨key, value⟩ := member
    rw [membersDistinct, Bool.and_eq_true, List.forall_mem_cons, ih]

mutual

theorem distinct_dedupe (j : Json σ ν) : j.dedupe.distinct = true := by
  cases j with
  | null | bool | number | string => rfl
  | array items => exact itemsDistinct_dedupe items
  | object members =>
    rw [dedupe, distinct, Bool.and_eq_true, decide_eq_true_eq]
    refine ⟨(OrderedMap.ofList _).nodup, membersDistinct_iff.mpr fun m hm => ?_⟩
    exact membersDistinct_iff.mp (membersDistinct_dedupe members) m
      (OrderedMap.mem_of_mem_ofList hm)

theorem itemsDistinct_dedupe (items : List (Json σ ν)) :
    itemsDistinct (dedupeItems items) = true := by
  cases items with
  | nil => rfl
  | cons item items =>
    rw [dedupeItems, itemsDistinct, distinct_dedupe item, itemsDistinct_dedupe items]
    rfl

theorem membersDistinct_dedupe (members : List (σ × Json σ ν)) :
    membersDistinct (dedupeMembers members) = true := by
  cases members with
  | nil => rfl
  | cons member members =>
    obtain ⟨key, value⟩ := member
    rw [dedupeMembers, membersDistinct, distinct_dedupe value, membersDistinct_dedupe members]
    rfl

end

mutual

theorem dedupe_of_distinct (j : Json σ ν) (h : j.distinct = true) : j.dedupe = j := by
  cases j with
  | null | bool | number | string => rfl
  | array items => rw [dedupe, dedupeItems_of_distinct items h]
  | object members =>
    obtain ⟨hnames, hvalues⟩ := Bool.and_eq_true_iff.mp h
    rw [dedupe, dedupeMembers_of_distinct members hvalues,
      OrderedMap.entries_ofList (of_decide_eq_true hnames)]

theorem dedupeItems_of_distinct (items : List (Json σ ν)) (h : itemsDistinct items = true) :
    dedupeItems items = items := by
  cases items with
  | nil => rfl
  | cons item items =>
    obtain ⟨hitem, hitems⟩ := Bool.and_eq_true_iff.mp h
    rw [dedupeItems, dedupe_of_distinct item hitem, dedupeItems_of_distinct items hitems]

theorem dedupeMembers_of_distinct (members : List (σ × Json σ ν))
    (h : membersDistinct members = true) : dedupeMembers members = members := by
  cases members with
  | nil => rfl
  | cons member members =>
    obtain ⟨key, value⟩ := member
    obtain ⟨hvalue, hmembers⟩ := Bool.and_eq_true_iff.mp h
    rw [dedupeMembers, dedupe_of_distinct value hvalue,
      dedupeMembers_of_distinct members hmembers]

end

mutual

theorem depth_dedupe_le (j : Json σ ν) : j.dedupe.depth ≤ j.depth := by
  cases j with
  | null | bool | number | string => exact Nat.le_refl 0
  | array items => exact Nat.succ_le_succ (itemsDepth_dedupe_le items)
  | object members =>
    refine Nat.succ_le_succ (membersDepth_le_iff.mpr fun m hm => ?_)
    exact membersDepth_le_iff.mp (membersDepth_dedupe_le members) m
      (OrderedMap.mem_of_mem_ofList hm)

theorem itemsDepth_dedupe_le (items : List (Json σ ν)) :
    itemsDepth (dedupeItems items) ≤ itemsDepth items := by
  cases items with
  | nil => exact Nat.le_refl 0
  | cons item items =>
    exact max_le_max (depth_dedupe_le item) (itemsDepth_dedupe_le items)

theorem membersDepth_dedupe_le (members : List (σ × Json σ ν)) :
    membersDepth (dedupeMembers members) ≤ membersDepth members := by
  cases members with
  | nil => exact Nat.le_refl 0
  | cons member members =>
    obtain ⟨key, value⟩ := member
    exact max_le_max (depth_dedupe_le value) (membersDepth_dedupe_le members)

end

section Every

variable {p : σ → Prop} {q : ν → Prop}

mutual

theorem Every.dedupe (j : Json σ ν) (h : j.Every p q) : j.dedupe.Every p q := by
  cases j with
  | null | bool | number | string => exact h
  | array items => exact ItemsEvery.dedupe items h
  | object members =>
    refine membersEvery_iff.mpr fun m hm => ?_
    exact membersEvery_iff.mp (MembersEvery.dedupe members h) m (OrderedMap.mem_of_mem_ofList hm)

theorem ItemsEvery.dedupe (items : List (Json σ ν)) (h : ItemsEvery p q items) :
    ItemsEvery p q (dedupeItems items) := by
  cases items with
  | nil => trivial
  | cons item items => exact ⟨Every.dedupe item h.1, ItemsEvery.dedupe items h.2⟩

theorem MembersEvery.dedupe (members : List (σ × Json σ ν)) (h : MembersEvery p q members) :
    MembersEvery p q (dedupeMembers members) := by
  cases members with
  | nil => trivial
  | cons member members =>
    obtain ⟨key, value⟩ := member
    exact ⟨h.1, Every.dedupe value h.2.1, MembersEvery.dedupe members h.2.2⟩

end

end Every

end Dedupe

end Json

end FluxFast.Theory
