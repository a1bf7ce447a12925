import FluxFast.Server.Headers

/-!
# KeyHeaders — a key list from the client's header to the server's set

What the client writes into `X-FluxFast-Only` and `X-FluxFast-Live-Keys`, sent by `fetch` and read by
the server.  A header is a byte string, so a key with a character above U+00FF cannot be sent; and
both readers strip every key, so any other key survives exactly when it has nothing to strip.
-/

namespace FluxFast.Server

open FluxFast.Core FluxFast.Theory

namespace Headers

/-- `keys.join(",")`. -/
def joined (keys : List String) : String := ",".intercalate keys

/-- The `X-FluxFast-Only` header of a request; without keys there is none. -/
def onlyHeader (only : List String) : Option String :=
  match Transport.selectOnlyResources only with
  | [] => none
  | safe => some (joined safe)

/-- The `X-FluxFast-Live-Keys` header of a connection. -/
def liveKeysHeader (keys : List String) : Except String String :=
  (LiveTransport.serializeLiveKeys keys).map joined

/-! ## Sending a header -/

/-- HTTP white space. -/
def isHttpSpace (c : Char) : Bool := c = ' ' || c = '\t' || c = '\n' || c = '\r'

/-- A character that is one byte in Latin-1. -/
def isByte (c : Char) : Bool := c.toNat ≤ 0xff

/-- What the server gets of a header value: `fetch` makes it a byte string, or throws and sends
nothing, and drops the white space around it; the server decodes it as Latin-1. -/
def received (value : String) : Option String :=
  if value.toList.all isByte then
    some (String.ofList ((value.toList.dropWhile isHttpSpace).rdropWhile isHttpSpace))
  else none

/-! ## Declared keys -/

structure Declared (key : String) : Prop where
  nonblank : PyText.blank key = false
  short : Text.jsLength key ≤ maxKeyLength
  comma : ',' ∉ key.toList
  control : PyText.containsControlCharacters key = false

theorem declared_of_validate {key accepted : String} (h : validateResourceKey key = .ok accepted) :
    Declared key := by
  unfold validateResourceKey at h
  by_cases hfirst : (PyText.blank key || decide (128 < PyText.javascriptStringLength key)) = true
  · rw [if_pos hfirst] at h
    cases h
  · rw [if_neg hfirst] at h
    by_cases hsecond :
        (key.toList.contains ',' || PyText.containsControlCharacters key) = true
    · simp only [hsecond, if_true] at h
      cases h
    · simp only [Bool.or_eq_true, decide_eq_true_eq, not_or, Bool.not_eq_true,
        PyText.javascriptStringLength_eq] at hfirst hsecond
      exact ⟨hfirst.1, Nat.le_of_not_lt hfirst.2, by simpa using hsecond.1, hsecond.2⟩

namespace Declared

variable {key : String}

theorem short_strip (h : Declared key) : (PyText.strip key).length ≤ maxKeyLength :=
  (PyText.length_strip_le key).trans ((PyText.length_le_jsLength key).trans h.short)

theorem strip_ne (h : Declared key) : PyText.strip key ≠ "" := by
  intro heq
  have hblank := PyText.strip_eq_empty_iff.mp heq
  rw [h.nonblank] at hblank
  cases hblank

theorem hasComma (h : Declared key) : Text.hasComma key = false := by
  rw [Text.hasComma, List.any_eq_false]
  intro c hc hcomma
  exact h.comma (of_decide_eq_true hcomma ▸ hc)

/-- The client keeps the key for a page request unless it takes it for blank. -/
theorem isSafeResourceKey (h : Declared key) :
    Transport.isSafeResourceKey key = !Text.blank key := by
  have hcontrol : Text.hasControlCharacters key = false :=
    (PyText.hasControlCharacters_eq key).trans h.control
  have hshort : Text.jsLength key ≤ Transport.maxKeyLength := h.short
  simp [Transport.isSafeResourceKey, h.hasComma, hcontrol, hshort]

theorem isSafeLiveKey (h : Declared key) : LiveTransport.isSafeLiveKey key = !Text.blank key := by
  have hcontrol : Text.hasControl key = false := by
    rw [Text.hasControl, List.any_eq_false]
    intro c hc hlow
    have hnone := List.any_eq_false.mp h.control c hc
    exact hnone (PyText.isControl_iff.mpr (.inl (of_decide_eq_true hlow)))
  have hshort : Text.jsLength key ≤ LiveTransport.maxLiveResourceKeyLength := h.short
  simp [LiveTransport.isSafeLiveKey, h.hasComma, hcontrol, hshort]

end Declared

/-! ## Joined keys -/

section Joined

variable {keys : List String}

theorem splitCommas_joined (hne : keys ≠ []) (hcomma : ∀ key ∈ keys, ',' ∉ key.toList) :
    splitCommas (joined keys) = keys := by
  have hparts : ∀ part ∈ keys.map String.toList, ',' ∉ part := by
    intro part hpart
    obtain ⟨key, hkey, rfl⟩ := List.mem_map.mp hpart
    exact hcomma key hkey
  rw [splitCommas, joined, String.toList_intercalate]
  show List.map String.ofList (List.splitOn ',' ([','].intercalate (keys.map String.toList))) = keys
  rw [List.splitOn_intercalate ',' hparts (by simpa using hne), List.map_map]
  simp

theorem utf8Bytes_joined (keys : List String) :
    Text.utf8Bytes (joined keys) = Transport.joinedBytes keys := by
  rw [Text.utf8Bytes, joined, String.toList_intercalate, Transport.joinedBytes]
  induction keys with
  | nil => rfl
  | cons key rest ih =>
    cases rest with
    | nil => simp [Text.utf8Bytes]
    | cons next rest =>
      have hcomma : Text.charBytes ',' = 1 := by decide
      simp only [List.map_cons, List.intercalate_cons_cons, List.map_append, List.sum_append,
        List.sum_cons, List.length_cons] at ih ⊢
      rw [ih]
      simp only [Text.utf8Bytes]
      simp [hcomma]
      omega

theorem sublist_intercalate {α : Type} {separator part : List α} {parts : List (List α)}
    (h : part ∈ parts) : part.Sublist (separator.intercalate parts) := by
  induction parts with
  | nil => cases h
  | cons first rest ih =>
    cases rest with
    | nil =>
      obtain rfl := List.mem_singleton.mp h
      rw [List.intercalate_singleton]
    | cons next rest =>
      rw [List.intercalate_cons_cons]
      rcases List.mem_cons.mp h with rfl | h
      · exact List.sublist_append_of_sublist_left (List.sublist_append_left part separator)
      · exact List.sublist_append_of_sublist_right (ih h)

theorem blank_joined {key : String} (hkey : key ∈ keys) (h : PyText.blank key = false) :
    PyText.blank (joined keys) = false := by
  cases hblank : PyText.blank (joined keys) with
  | false => rfl
  | true =>
    have hsub : key.toList.Sublist (joined keys).toList := by
      rw [joined, String.toList_intercalate]
      exact sublist_intercalate (List.mem_map_of_mem hkey)
    rw [PyText.blank_of_sublist hsub hblank] at h
    cases h

theorem mem_intercalate {α : Type} {separator : List α} {parts : List (List α)} {x : α}
    (h : x ∈ separator.intercalate parts) : x ∈ separator ∨ ∃ part ∈ parts, x ∈ part := by
  induction parts with
  | nil => cases h
  | cons first rest ih =>
    cases rest with
    | nil =>
      rw [List.intercalate_singleton] at h
      exact .inr ⟨first, List.mem_singleton_self _, h⟩
    | cons next rest =>
      rw [List.intercalate_cons_cons, List.mem_append, List.mem_append] at h
      rcases h with (hfirst | hseparator) | hrest
      · exact .inr ⟨first, List.mem_cons_self, hfirst⟩
      · exact .inl hseparator
      · refine (ih hrest).imp_right ?_
        rintro ⟨part, hpart, hx⟩
        exact ⟨part, List.mem_cons_of_mem _ hpart, hx⟩

/-- Joined parts that are not empty begin and end like parts. -/
theorem ends_intercalate {α : Type} (separator : List α) {parts : List (List α)}
    (hne : parts ≠ []) (hparts : ∀ part ∈ parts, part ≠ []) :
    (∃ part ∈ parts, (separator.intercalate parts).head? = part.head?) ∧
      ∃ part ∈ parts, (separator.intercalate parts).getLast? = part.getLast? := by
  induction parts with
  | nil => exact absurd rfl hne
  | cons first rest ih =>
    cases rest with
    | nil =>
      rw [List.intercalate_singleton]
      exact ⟨⟨first, List.mem_singleton_self _, rfl⟩, first, List.mem_singleton_self _, rfl⟩
    | cons next rest =>
      obtain ⟨-, part, hpart, hlast⟩ := ih (List.cons_ne_nil _ _) fun part hpart =>
        hparts part (List.mem_cons_of_mem _ hpart)
      obtain ⟨x, hx⟩ := Option.ne_none_iff_exists'.mp fun hnone =>
        hparts part (List.mem_cons_of_mem _ hpart) (List.getLast?_eq_none_iff.mp hnone)
      obtain ⟨y, ys, hy⟩ := List.exists_cons_of_ne_nil (hparts first List.mem_cons_self)
      rw [List.intercalate_cons_cons]
      refine ⟨⟨first, List.mem_cons_self, ?_⟩, part, List.mem_cons_of_mem _ hpart, ?_⟩
      · rw [hy]
        rfl
      · rw [List.getLast?_append, hlast, hx]
        rfl

theorem dropWhile_of_head? {α : Type} {p : α → Bool} {l : List α}
    (h : ∀ x ∈ l.head?, p x = false) : l.dropWhile p = l := by
  cases l with
  | nil => rfl
  | cons x rest => exact List.dropWhile_cons_of_neg (by simp [h x rfl])

theorem isStripped_of_isHttpSpace {c : Char} (h : isHttpSpace c = true) : isStripped c = true := by
  simp only [isHttpSpace, Bool.or_eq_true, decide_eq_true_eq] at h
  rcases h with ((rfl | rfl) | rfl) | rfl <;> decide

/-- A list of keys that are bytes and have nothing to strip is sent as it is. -/
theorem received_joined (hne : keys ≠ []) (hdeclared : ∀ key ∈ keys, Declared key)
    (hplain : ∀ key ∈ keys, PyText.strip key = key)
    (hbytes : ∀ key ∈ keys, key.toList.all isByte = true) :
    received (joined keys) = some (joined keys) := by
  have htext : (joined keys).toList = [','].intercalate (keys.map String.toList) := by
    rw [joined, String.toList_intercalate]
    rfl
  have hsome : ∀ part ∈ keys.map String.toList, part ≠ [] := by
    intro part hpart hnil
    obtain ⟨key, hkey, rfl⟩ := List.mem_map.mp hpart
    refine (hdeclared key hkey).strip_ne ?_
    rw [hplain key hkey, ← String.toList_inj, hnil]
    rfl
  have hspace : ∀ c, isStripped c = false → isHttpSpace c = false := fun c hc => by
    by_contra htrue
    rw [isStripped_of_isHttpSpace (Bool.eq_true_of_not_eq_false htrue)] at hc
    cases hc
  have hall : (joined keys).toList.all isByte = true := by
    rw [htext, List.all_eq_true]
    intro c hc
    rcases mem_intercalate hc with hcomma | ⟨part, hpart, hmem⟩
    · rw [List.mem_singleton.mp hcomma]
      decide
    · obtain ⟨key, hkey, rfl⟩ := List.mem_map.mp hpart
      exact List.all_eq_true.mp (hbytes key hkey) c hmem
  -- the ends are the ends of keys, which are no white space
  obtain ⟨⟨front, hfront, hhead⟩, back, hback, hlast⟩ := ends_intercalate [',']
    (fun hnil => hne (List.map_eq_nil_iff.mp hnil)) hsome
  obtain ⟨first, hfirst, rfl⟩ := List.mem_map.mp hfront
  obtain ⟨last, hlastMem, rfl⟩ := List.mem_map.mp hback
  rw [← htext] at hhead hlast
  have hleft : (joined keys).toList.dropWhile isHttpSpace = (joined keys).toList :=
    dropWhile_of_head? fun c hc =>
      hspace c ((PyText.ends_of_strip (hplain first hfirst)).1 c (hhead ▸ hc))
  have hright : (joined keys).toList.rdropWhile isHttpSpace = (joined keys).toList := by
    rw [List.rdropWhile, dropWhile_of_head?, List.reverse_reverse]
    intro c hc
    rw [List.head?_reverse, hlast] at hc
    exact hspace c ((PyText.ends_of_strip (hplain last hlastMem)).2 c hc)
  rw [received, if_pos hall, hleft, hright, String.ofList_toList]

/-- The server's reading of a joined list: every key, stripped. -/
theorem parseOnlyHeader_joined (hne : keys ≠ []) (hdeclared : ∀ key ∈ keys, Declared key)
    (hcount : keys.length ≤ maxKnownResources)
    (hbytes : Transport.joinedBytes keys ≤ maxOnlyHeaderBytes) :
    parseOnlyHeader (some (joined keys)) = .ok (some (keys.map PyText.strip).toFinset) := by
  obtain ⟨first, hfirst⟩ := List.exists_mem_of_ne_nil keys hne
  have hblank := blank_joined hfirst (hdeclared first hfirst).nonblank
  have hsize : ¬ maxOnlyHeaderBytes < Text.utf8Bytes (joined keys) := by
    rw [utf8Bytes_joined]
    omega
  have hkept : keys.filter (fun rawKey => PyText.strip rawKey ≠ "" &&
      (PyText.strip rawKey).length ≤ maxKeyLength &&
        !PyText.containsControlCharacters rawKey) = keys := by
    refine List.filter_eq_self.mpr fun key hkey => ?_
    have h := hdeclared key hkey
    simp [h.strip_ne, h.short_strip, h.control]
  have hsplit := splitCommas_joined hne fun key hkey => (hdeclared key hkey).comma
  simp only [parseOnlyHeader, hblank, hsize, hsplit, List.take_of_length_le hcount, hkept]
  simp [hne, pure, Except.pure]

theorem parseLiveKeysHeader_joined (hne : keys ≠ []) (hdeclared : ∀ key ∈ keys, Declared key)
    (hcount : keys.length ≤ maxLiveKeys)
    (hbytes : Transport.joinedBytes keys ≤ maxLiveKeysHeaderBytes) :
    parseLiveKeysHeader (some (joined keys)) = .ok (keys.map PyText.strip).toFinset := by
  obtain ⟨first, hfirst⟩ := List.exists_mem_of_ne_nil keys hne
  have hblank := blank_joined hfirst (hdeclared first hfirst).nonblank
  have hsize : ¬ maxLiveKeysHeaderBytes < Text.utf8Bytes (joined keys) := by
    rw [utf8Bytes_joined]
    omega
  have hvalid : keys.any (fun rawKey => PyText.strip rawKey = "" ||
      maxKeyLength < (PyText.strip rawKey).length ||
        PyText.containsControlCharacters rawKey) = false := by
    refine List.any_eq_false.mpr fun key hkey => ?_
    have h := hdeclared key hkey
    simp [h.strip_ne, h.short_strip, h.control]
  have hsplit := splitCommas_joined hne fun key hkey => (hdeclared key hkey).comma
  simp only [parseLiveKeysHeader, hblank, hsize, hsplit, Nat.not_lt.mpr hcount, hvalid]
  simp [pure, Except.pure]

end Joined

/-! ## The client's side -/

section Client

variable {keys : List String}

theorem joinedBytes_sublist {keys' : List String} (h : keys'.Sublist keys) :
    Transport.joinedBytes keys' ≤ Transport.joinedBytes keys := by
  have hsum : (keys'.map Text.utf8Bytes).sum ≤ (keys.map Text.utf8Bytes).sum :=
    (h.map Text.utf8Bytes).sum_le_sum fun _ _ => Nat.zero_le _
  exact Nat.add_le_add hsum (Nat.sub_le_sub_right h.length_le 1)

theorem joinedBytes_perm {keys' : List String} (h : keys'.Perm keys) :
    Transport.joinedBytes keys' = Transport.joinedBytes keys := by
  rw [Transport.joinedBytes, Transport.joinedBytes, (h.map Text.utf8Bytes).sum_eq, h.length_eq]

theorem unique_sublist (keys : List String) : (unique keys).Sublist keys := by
  induction keys with
  | nil => exact .slnil
  | cons key rest ih => exact (List.filter_sublist.trans ih).cons_cons key

theorem sort_perm (keys : List String) : (Text.sort keys).Perm keys :=
  List.perm_insertionSort _ _

theorem selectOnlyResources_of_declared (hcount : keys.length ≤ maxKnownResources)
    (hdeclared : ∀ key ∈ keys, Declared key)
    (hbytes : Transport.joinedBytes keys ≤ maxOnlyHeaderBytes) :
    Transport.selectOnlyResources keys = keys.filter fun key => !Text.blank key := by
  have hsafe : keys.filter Transport.isSafeResourceKey = keys.filter fun key => !Text.blank key :=
    List.filter_congr fun key hkey => (hdeclared key hkey).isSafeResourceKey
  have hlength : (keys.filter fun key => !Text.blank key).length ≤ Transport.maxKnownResources :=
    (List.length_filter_le _ _).trans hcount
  have hfits : Transport.joinedBytes (keys.filter fun key => !Text.blank key) ≤
      Transport.maxOnlyHeaderBytes :=
    (joinedBytes_sublist List.filter_sublist).trans hbytes
  simp only [Transport.selectOnlyResources, hsafe, List.take_of_length_le hlength, hfits, if_true]

/-- The live transport refuses a list with a key it takes for blank, and sends any other. -/
theorem serializeLiveKeys_of_declared (hne : keys ≠ []) (hcount : keys.length ≤ maxLiveKeys)
    (hdeclared : ∀ key ∈ keys, Declared key)
    (hbytes : Transport.joinedBytes keys ≤ maxLiveKeysHeaderBytes) :
    LiveTransport.serializeLiveKeys keys =
      if keys.any Text.blank then .error "Live resource keys must be safe non-empty strings"
      else .ok (Text.sort (unique keys)) := by
  have hperm := sort_perm (unique keys)
  have hlength : (Text.sort (unique keys)).length ≤ LiveTransport.maxLiveEventKeys := by
    rw [hperm.length_eq]
    exact (unique_sublist keys).length_le.trans hcount
  have hfits : Transport.joinedBytes (Text.sort (unique keys)) ≤
      LiveTransport.maxLiveKeysHeaderBytes := by
    rw [joinedBytes_perm hperm]
    exact (joinedBytes_sublist (unique_sublist keys)).trans hbytes
  have hall : (Text.sort (unique keys)).all LiveTransport.isSafeLiveKey = !keys.any Text.blank := by
    rw [Bool.eq_iff_iff]
    simp only [List.all_eq_true, Text.mem_sort, mem_unique, Bool.not_eq_true', List.any_eq_false]
    refine forall₂_congr fun key hkey => ?_
    rw [(hdeclared key hkey).isSafeLiveKey]
    simp
  simp only [LiveTransport.serializeLiveKeys, hne, if_false, Nat.not_lt.mpr hlength, hall,
    Bool.not_not, Nat.not_lt.mpr hfits]

end Client

/-- A byte that is white space to the client is white space to the server. -/
theorem not_blank_of_bytes {key : String} (h : Declared key) (hbytes : key.toList.all isByte = true) :
    Text.blank key = false := by
  by_contra hblank
  have hall := List.all_eq_true.mp (Bool.eq_true_of_not_eq_false hblank)
  have hserver : PyText.blank key = true := by
    refine List.all_eq_true.mpr fun c hc => ?_
    have hspace := hall c hc
    have hbyte := List.all_eq_true.mp hbytes c hc
    simp only [Text.isSpace, isByte, isStripped, PyText.isStrippedPoint, Bool.or_eq_true,
      Bool.and_eq_true, decide_eq_true_eq] at hspace hbyte ⊢
    omega
  rw [h.nonblank] at hserver
  cases hserver

/-- The keys that the server reads in a live request are stripped. -/
theorem strip_of_parseLiveKeysHeader {value : String} {read : Finset String}
    (h : parseLiveKeysHeader (some value) = .ok read) : ∀ key ∈ read, PyText.strip key = key := by
  unfold parseLiveKeysHeader at h
  dsimp only at h
  split at h
  · cases h
  · split at h
    · cases h
    · split at h
      · cases h
      · split at h
        · cases h
        · intro key hkey
          rw [← Except.ok.inj h] at hkey
          obtain ⟨raw, -, rfl⟩ := List.mem_map.mp (List.mem_toFinset.mp hkey)
          exact PyText.strip_idem raw

/-- Both headers reach the server, which reads exactly these keys in either. -/
def ReadBack (keys : List String) : Prop :=
  (∃ header value, onlyHeader keys = some header ∧ received header = some value ∧
    parseOnlyHeader (some value) = .ok (some keys.toFinset)) ∧
  ∃ header value, liveKeysHeader keys = .ok header ∧ received header = some value ∧
    parseLiveKeysHeader (some value) = .ok keys.toFinset

/-- For every non-empty list of at most 100 declared keys that fits the limit: both headers are read
as exactly the set of these keys if and only if no key begins or ends with a character that the
server strips and all characters are bytes. -/
theorem key_headers_agree_iff {keys : List String} (hne : keys ≠ [])
    (hcount : keys.length ≤ maxKnownResources)
    (hvalid : ∀ key ∈ keys, validateResourceKey key = .ok key)
    (hbytes : Transport.joinedBytes keys ≤ maxOnlyHeaderBytes) :
    ReadBack keys ↔ ∀ key ∈ keys, PyText.strip key = key ∧ key.toList.all isByte = true := by
  -- A declared key passes both clients' checks, so both headers are written.
  have hdeclared : ∀ key ∈ keys, Declared key := fun key hkey =>
    declared_of_validate (hvalid key hkey)
  have hserialized := serializeLiveKeys_of_declared hne hcount hdeclared hbytes
  have hperm := sort_perm (unique keys)
  have hmem : ∀ key, key ∈ Text.sort (unique keys) ↔ key ∈ keys := fun key =>
    Text.mem_sort.trans mem_unique
  constructor
  -- The parser strips what it reads, so a key that comes back was stripped before.
  · rintro ⟨-, header, value, hheader, hvalue, hparsed⟩ key hkey
    refine ⟨strip_of_parseLiveKeysHeader hparsed key (List.mem_toFinset.mpr hkey), ?_⟩
    rw [liveKeysHeader, hserialized] at hheader
    split at hheader
    · cases hheader
    · obtain rfl : joined (Text.sort (unique keys)) = header := Except.ok.inj hheader
      -- the request itself was accepted, so every character of the joined keys is a byte
      unfold received at hvalue
      split at hvalue
      · next hall =>
        have hsub : key.toList.Sublist (joined (Text.sort (unique keys))).toList := by
          rw [joined, String.toList_intercalate]
          exact sublist_intercalate (List.mem_map_of_mem ((hmem key).mpr hkey))
        exact List.all_eq_true.mpr fun c hc => List.all_eq_true.mp hall c (hsub.subset hc)
      · cases hvalue
  · intro hplain
    -- a key of byte characters is blank for one side only if it is for the other
    have hclear : ∀ key ∈ keys, Text.blank key = false := fun key hkey =>
      not_blank_of_bytes (hdeclared key hkey) (hplain key hkey).2
    have hstrip : ∀ {l : List String}, (∀ key ∈ l, key ∈ keys) → l.map PyText.strip = l :=
      fun hl => (List.map_congr_left fun key hkey => (hplain key (hl key hkey)).1).trans
        (List.map_id _)
    have honly : onlyHeader keys = some (joined keys) := by
      have hkept : (keys.filter fun key => !Text.blank key) = keys :=
        List.filter_eq_self.mpr fun key hkey => by simp [hclear key hkey]
      rw [onlyHeader, selectOnlyResources_of_declared hcount hdeclared hbytes, hkept]
      cases keys with
      | nil => exact absurd rfl hne
      | cons key rest => rfl
    -- the joined text neither starts nor ends with a blank, so the transport leaves it as it is
    have hsent : ∀ {l : List String}, l ≠ [] → (∀ key ∈ l, key ∈ keys) →
        received (joined l) = some (joined l) := fun hl hsub =>
      received_joined hl (fun key hkey => hdeclared key (hsub key hkey))
        (fun key hkey => (hplain key (hsub key hkey)).1)
        fun key hkey => (hplain key (hsub key hkey)).2
    -- first the partial request's header, then the stream's
    refine ⟨⟨joined keys, joined keys, honly, hsent hne fun _ h => h, ?_⟩,
      joined (Text.sort (unique keys)), joined (Text.sort (unique keys)), ?_, ?_, ?_⟩
    · rw [parseOnlyHeader_joined hne hdeclared hcount hbytes, hstrip fun _ h => h]
    · rw [liveKeysHeader, hserialized, List.any_eq_false.mpr fun key hkey => by
        simp [hclear key hkey]]
      rfl
    all_goals
      obtain ⟨first, hfirst⟩ := List.exists_mem_of_ne_nil keys hne
      have hsome : Text.sort (unique keys) ≠ [] := List.ne_nil_of_mem ((hmem first).mpr hfirst)
    · exact hsent hsome fun key => (hmem key).mp
    · rw [parseLiveKeysHeader_joined hsome (fun key hkey => hdeclared key ((hmem key).mp hkey)) ?_ ?_,
        hstrip fun key => (hmem key).mp]
      · exact congrArg _ (Finset.ext fun key => by simp)
      · rw [hperm.length_eq]
        -- the stream sorts the keys and drops repeated ones, which only shortens the header
        exact (unique_sublist keys).length_le.trans hcount
      · rw [joinedBytes_perm hperm]
        exact (joinedBytes_sublist (unique_sublist keys)).trans hbytes

theorem key_headers_agree_iff_rooms :
    ReadBack ["rooms", "café"] ↔ ∀ key ∈ ["rooms", "café"],
      PyText.strip key = key ∧ key.toList.all isByte = true := by
  refine key_headers_agree_iff (by decide) (by decide) (fun key hkey => ?_) (by decide)
  rcases List.mem_cons.mp hkey with rfl | hkey
  · rfl
  · obtain rfl := List.mem_singleton.mp hkey
    rfl

/-- A declared key with a leading blank comes back without it. -/
theorem key_altered_in_header :
    ¬ ∀ keys : List String, keys ≠ [] → keys.length ≤ maxKnownResources →
      (∀ key ∈ keys, validateResourceKey key = .ok key) →
      Transport.joinedBytes keys ≤ maxOnlyHeaderBytes → ReadBack keys := by
  intro h
  have hvalid : ∀ key ∈ [" rooms"], validateResourceKey key = .ok key := by
    intro key hkey
    obtain rfl := List.mem_singleton.mp hkey
    rfl
  obtain ⟨⟨header, value, hheader, hvalue, hread⟩, -⟩ :=
    h [" rooms"] (by decide) (by decide) hvalid (by decide)
  obtain rfl : header = " rooms" := Option.some.inj (hheader.symm.trans rfl)
  obtain rfl : value = "rooms" := Option.some.inj (hvalue.symm.trans rfl)
  have hset : ({"rooms"} : Finset String) = [" rooms"].toFinset :=
    Option.some.inj (Except.ok.inj ((show parseOnlyHeader (some "rooms") =
      .ok (some {"rooms"}) by rfl).symm.trans hread))
  exact absurd hset (by decide)

end Headers

end FluxFast.Server
