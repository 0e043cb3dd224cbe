import Oath.Transparency.Lines

/-! Two verified logs with the same number of hashed entries and the same last hash or Merkle root
have the same hashed entries; and what is logged one after the other verifies. -/

namespace Oath.Transparency
open Contracts Contracts.Value Registry Replace

section Chain
variable {sha : Sha256}

/-! ## The chain -/

/-- An entry verifies exactly when it is the one that is logged after that hash. -/
theorem verifyEntry_eq_ok {previous hash : String} {entry : TransparencyEntry} :
    verifyEntry sha previous entry = .ok hash ↔
      entry = entryAfter sha previous entry.payload ∧
        hash = hashEntry sha previous entry.payload := by
  obtain ⟨ts, project, pkgCount, packages, durationMs, previousHash, entryHash⟩ := entry
  unfold verifyEntry
  dsimp only
  split_ifs with hprevious hentry
  · simp [entryAfter, hprevious]
  · simp only [entryAfter, TransparencyEntry.payload, TransparencyEntry.mk.injEq] at hentry ⊢
    simp [hentry]
  · rw [not_not] at hprevious hentry
    simp only [TransparencyEntry.payload] at hentry
    simp [entryAfter, TransparencyEntry.payload, hprevious, hentry, eq_comm]

/-- The hashed entries that verify, to the hash of the last one. -/
def Chain (sha : Sha256) (entries : List TransparencyEntry) (last : String) : Prop :=
  entries.foldlM (verifyEntry sha) genesisHash = .ok last

theorem chain_nil {last : String} : Chain sha [] last ↔ last = genesisHash := by
  unfold Chain
  rw [List.foldlM_nil]
  exact ⟨fun h => (Except.ok.inj h).symm, fun h => congrArg Except.ok h.symm⟩

theorem chain_concat {entries : List TransparencyEntry} {entry : TransparencyEntry}
    {last : String} : Chain sha (entries ++ [entry]) last ↔ ∃ previous, Chain sha entries previous ∧
      entry = entryAfter sha previous entry.payload ∧
        last = hashEntry sha previous entry.payload := by
  unfold Chain
  have hone : ∀ previous, [entry].foldlM (verifyEntry sha) previous =
      verifyEntry sha previous entry := fun previous => bind_pure _
  rw [List.foldlM_append]
  constructor
  · intro h
    obtain ⟨previous, hchain, hentry⟩ := Except.bind_eq_ok.mp h
    rw [hone] at hentry
    exact ⟨previous, hchain, verifyEntry_eq_ok.mp hentry⟩
  · rintro ⟨previous, hchain, hentry⟩
    refine Except.bind_eq_ok.mpr ⟨previous, hchain, ?_⟩
    rw [hone]
    exact verifyEntry_eq_ok.mpr hentry

/-- The hash a chain ends with is a hash. -/
theorem Chain.isHash {entries : List TransparencyEntry} {last : String}
    (h : Chain sha entries last) : IsHash last := by
  cases entries using List.reverseRecOn with
  | nil =>
    rw [chain_nil.mp h]
    exact isHash_genesisHash
  | append_singleton entries entry =>
    obtain ⟨previous, -, -, hlast⟩ := chain_concat.mp h
    rw [hlast]
    exact isHash_hexSha256 sha _

/-- What is hashed for entries with the hash before them. -/
def chainInputs (entries : List TransparencyEntry) : List (List UInt8) :=
  entries.filterMap fun entry => entry.previousHash.map fun previous =>
    entryInput previous entry.payload

theorem mem_chainInputs_concat {entry : TransparencyEntry} {previous : String}
    (h : entry = entryAfter sha previous entry.payload) (entries : List TransparencyEntry) :
    entryInput previous entry.payload ∈ chainInputs (entries ++ [entry]) := by
  refine List.mem_filterMap.mpr ⟨entry, List.mem_append_right entries List.mem_cons_self, ?_⟩
  have hprevious : entry.previousHash = some previous := by
    rw [h]
    rfl
  rw [hprevious]
  rfl

theorem chainInputs_concat_subset (entries : List TransparencyEntry) (entry : TransparencyEntry) :
    chainInputs entries ⊆ chainInputs (entries ++ [entry]) := by
  intro input hinput
  rw [chainInputs, List.filterMap_append]
  exact List.mem_append_left _ hinput

/-- Chains of one length to one hash are the same: backwards, entry by entry. -/
theorem Chain.injective {S : Set (List UInt8)} (hS : Set.InjOn (hexSha256 sha) S)
    {entries others : List TransparencyEntry} {last : String} (h : Chain sha entries last)
    (h' : Chain sha others last) (hlength : entries.length = others.length)
    (hin : ∀ input ∈ chainInputs entries, input ∈ S)
    (hin' : ∀ input ∈ chainInputs others, input ∈ S) : entries = others := by
  induction entries using List.reverseRecOn generalizing others last with
  | nil => exact (List.eq_nil_of_length_eq_zero hlength.symm).symm
  | append_singleton entries entry ih =>
    cases others using List.reverseRecOn with
    | nil =>
      rw [List.length_append, List.length_singleton, List.length_nil] at hlength
      omega
    | append_singleton others other =>
      obtain ⟨previous, hchain, hentry, hlast⟩ := chain_concat.mp h
      obtain ⟨previous', hchain', hother, hlast'⟩ := chain_concat.mp h'
      have hmem := hin _ (mem_chainInputs_concat hentry entries)
      have hmem' := hin' _ (mem_chainInputs_concat hother others)
      have hinputs := hS hmem hmem' (hlast.symm.trans hlast')
      obtain ⟨hprevious, hpayload⟩ := entryInput_injective hchain.isHash hchain'.isHash hinputs
      have hsame : entry = other := by rw [hentry, hother, hprevious, hpayload]
      rw [← hprevious] at hchain'
      have hfront := ih hchain hchain' (by simpa using hlength)
        (fun input hinput => hin input (chainInputs_concat_subset entries entry hinput))
        (fun input hinput => hin' input (chainInputs_concat_subset others other hinput))
      rw [hfront, hsame]

end Chain

/-! ## The Merkle root -/

section Merkle
variable {sha : Sha256}

theorem chunks_injective : ∀ {hashes others : List String}, hashes.length % 2 = 0 →
    others.length % 2 = 0 → chunks hashes = chunks others → hashes = others
  | [], [], _, _, _ => rfl
  | [], a :: b :: rest, _, _, h => by cases h
  | a :: b :: rest, [], _, _, h => by cases h
  | a :: b :: rest, c :: d :: more, hr, hm, h => by
    rw [chunks, chunks] at h
    obtain ⟨hpair, hrest⟩ := List.cons.inj h
    obtain ⟨hfirst, hsecond⟩ := Prod.mk.inj hpair
    have heven : rest.length % 2 = 0 := by
      rw [List.length_cons, List.length_cons] at hr
      omega
    have heven' : more.length % 2 = 0 := by
      rw [List.length_cons, List.length_cons] at hm
      omega
    rw [hfirst, hsecond, chunks_injective heven heven' hrest]
  | [a], _, h, _, _ => by cases h
  | _, [a], _, h, _ => by cases h

/-- The hashes of a level, an even number of them. -/
def evened (hashes : List String) : List String :=
  if hashes.length % 2 = 1 then hashes ++ hashes.getLast?.toList else hashes

theorem length_evened (hashes : List String) :
    (evened hashes).length = hashes.length + hashes.length % 2 := by
  unfold evened
  split_ifs with hodd
  · have hne : hashes ≠ [] := by
      rintro rfl
      cases hodd
    rw [List.getLast?_eq_getLast_of_ne_nil hne, Option.toList_some, List.length_append, hodd,
      List.length_singleton]
  · omega

theorem prefix_evened (hashes : List String) : hashes <+: evened hashes := by
  unfold evened
  split_ifs
  · exact List.prefix_append _ _
  · exact List.prefix_refl _

theorem levelPairs_injective {hashes others : List String} (hlength : hashes.length = others.length)
    (h : levelPairs hashes = levelPairs others) : hashes = others := by
  have heven : ∀ hashes : List String, (evened hashes).length % 2 = 0 := by
    intro hashes
    rw [length_evened]
    omega
  have hevened : evened hashes = evened others := chunks_injective (heven _) (heven _) h
  have hprefix := prefix_evened hashes
  rw [hevened] at hprefix
  exact (List.prefix_of_prefix_length_le hprefix (prefix_evened others) hlength.le).eq_of_length
    hlength

theorem mem_chunks : ∀ {hashes : List String} {pair : String × String}, pair ∈ chunks hashes →
    pair.1 ∈ hashes ∧ pair.2 ∈ hashes
  | [], _, h => absurd h List.not_mem_nil
  | [_], _, h => absurd h List.not_mem_nil
  | a :: b :: rest, pair, h => by
    rw [chunks, List.mem_cons] at h
    rcases h with rfl | hrest
    · exact ⟨List.mem_cons_self, List.mem_cons_of_mem _ List.mem_cons_self⟩
    · obtain ⟨hfirst, hsecond⟩ := mem_chunks hrest
      exact ⟨List.mem_cons_of_mem _ (List.mem_cons_of_mem _ hfirst),
        List.mem_cons_of_mem _ (List.mem_cons_of_mem _ hsecond)⟩

theorem length_chunks : ∀ hashes : List String, (chunks hashes).length = hashes.length / 2
  | [] => rfl
  | [a] => by
    have hnone : chunks [a] = [] := rfl
    rw [hnone, List.length_singleton, List.length_nil]
  | a :: b :: rest => by
    rw [chunks, List.length_cons, length_chunks rest, List.length_cons, List.length_cons]
    omega

theorem length_levelPairs (hashes : List String) :
    (levelPairs hashes).length = (hashes.length + 1) / 2 := by
  have hlength : (levelPairs hashes).length = (evened hashes).length / 2 := length_chunks _
  rw [hlength, length_evened]
  omega

theorem mem_levelPairs {hashes : List String} {pair : String × String}
    (h : pair ∈ levelPairs hashes) : pair.1 ∈ hashes ∧ pair.2 ∈ hashes := by
  have hevened : ∀ hash ∈ evened hashes, hash ∈ hashes := by
    intro hash hmem
    unfold evened at hmem
    split_ifs at hmem
    · rcases List.mem_append.mp hmem with hfront | hlast
      · exact hfront
      · exact List.mem_of_getLast? (Option.mem_toList.mp hlast)
    · exact hmem
  obtain ⟨hfirst, hsecond⟩ := mem_chunks h
  exact ⟨hevened _ hfirst, hevened _ hsecond⟩

/-- Hashes have sixty-four digits. -/
def Digits (hashes : List String) : Prop := ∀ hash ∈ hashes, (asBytes hash).length = 64

theorem pairInput_injective {pair other : String × String}
    (h : (asBytes pair.1).length = 64) (h' : (asBytes other.1).length = 64)
    (hinput : pairInput pair = pairInput other) : pair = other := by
  obtain ⟨hfirst, hsecond⟩ := List.append_inj hinput (h.trans h'.symm)
  exact Prod.ext (asBytes_injective hfirst) (asBytes_injective hsecond)

theorem eq_of_map_eq {α β : Type} {f : α → β} {items others : List α}
    (hf : ∀ a ∈ items, ∀ b ∈ others, f a = f b → a = b) (h : items.map f = others.map f) :
    items = others := by
  induction items generalizing others with
  | nil =>
    rw [List.map_nil, eq_comm, List.map_eq_nil_iff] at h
    exact h.symm
  | cons a items ih =>
    cases others with
    | nil => cases h
    | cons b others =>
      rw [List.map_cons, List.map_cons] at h
      obtain ⟨hfirst, hrest⟩ := List.cons.inj h
      have hsame := hf a List.mem_cons_self b List.mem_cons_self hfirst
      have hmore := ih (fun a ha b hb => hf a (List.mem_cons_of_mem _ ha) b
        (List.mem_cons_of_mem _ hb)) hrest
      rw [hsame, hmore]

/-- The hashes of the next level. -/
def nextLevel (sha : Sha256) (hashes : List String) : List String :=
  (levelPairs hashes).map fun pair => hexSha256 sha (pairInput pair)

theorem digits_nextLevel (sha : Sha256) (hashes : List String) : Digits (nextLevel sha hashes) := by
  intro hash hmem
  obtain ⟨pair, -, rfl⟩ := List.mem_map.mp hmem
  exact length_hexSha256 sha _

theorem length_nextLevel (sha : Sha256) (hashes : List String) :
    (nextLevel sha hashes).length = (hashes.length + 1) / 2 := by
  rw [nextLevel, List.length_map, length_levelPairs]

theorem nextLevel_injective {S : Set (List UInt8)} (hS : Set.InjOn (hexSha256 sha) S)
    {hashes others : List String} (hdigits : Digits hashes) (hdigits' : Digits others)
    (hlength : hashes.length = others.length)
    (hin : ∀ pair ∈ levelPairs hashes, pairInput pair ∈ S)
    (hin' : ∀ pair ∈ levelPairs others, pairInput pair ∈ S)
    (h : nextLevel sha hashes = nextLevel sha others) : hashes = others := by
  refine levelPairs_injective hlength (eq_of_map_eq ?_ h)
  intro pair hpair other hother hhash
  exact pairInput_injective (hdigits _ (mem_levelPairs hpair).1)
    (hdigits' _ (mem_levelPairs hother).1) (hS (hin pair hpair) (hin' other hother) hhash)

/-- What is hashed for the levels over some hashes. -/
def merkleInputs (sha : Sha256) : ℕ → List String → List (List UInt8)
  | 0, _ => []
  | fuel + 1, hashes =>
    if hashes.length > 1 then
      (levelPairs hashes).map pairInput ++ merkleInputs sha fuel (nextLevel sha hashes)
    else []

/-- The loop ends with a single hash. -/
theorem length_merkleLevels {fuel : ℕ} {hashes : List String} (hne : hashes ≠ [])
    (hfuel : hashes.length ≤ fuel) : (merkleLevels sha fuel hashes).length = 1 := by
  have hpos := List.length_pos_iff.mpr hne
  induction fuel generalizing hashes with
  | zero => omega
  | succ fuel ih =>
    rw [merkleLevels]
    split_ifs with hmore
    · have hnext := length_nextLevel sha hashes
      change (merkleLevels sha fuel (nextLevel sha hashes)).length = 1
      exact ih (List.ne_nil_of_length_pos (by omega)) (by omega) (by omega)
    · omega

theorem merkleLevels_injective {S : Set (List UInt8)} (hS : Set.InjOn (hexSha256 sha) S)
    {fuel : ℕ} {hashes others : List String} (hdigits : Digits hashes) (hdigits' : Digits others)
    (hlength : hashes.length = others.length)
    (hin : ∀ input ∈ merkleInputs sha fuel hashes, input ∈ S)
    (hin' : ∀ input ∈ merkleInputs sha fuel others, input ∈ S)
    (h : merkleLevels sha fuel hashes = merkleLevels sha fuel others) : hashes = others := by
  induction fuel generalizing hashes others with
  | zero => exact h
  | succ fuel ih =>
    rw [merkleLevels, merkleLevels, ← hlength] at h
    rw [merkleInputs] at hin hin'
    rw [← hlength] at hin'
    split_ifs at h hin hin' with hmore
    · have hnext : nextLevel sha hashes = nextLevel sha others := by
        refine ih (digits_nextLevel sha hashes) (digits_nextLevel sha others) ?_
          (fun input hinput => hin input (List.mem_append_right _ hinput))
          (fun input hinput => hin' input (List.mem_append_right _ hinput)) h
        rw [length_nextLevel, length_nextLevel, hlength]
      exact nextLevel_injective hS hdigits hdigits' hlength
        (fun pair hpair => hin _ (List.mem_append_left _ (List.mem_map_of_mem hpair)))
        (fun pair hpair => hin' _ (List.mem_append_left _ (List.mem_map_of_mem hpair))) hnext
    · exact h

/-- As many hashes with the same root are the same hashes. -/
theorem merkleRoot_injective {S : Set (List UInt8)} (hS : Set.InjOn (hexSha256 sha) S)
    {hashes others : List String} (hdigits : Digits hashes) (hdigits' : Digits others)
    (hlength : hashes.length = others.length)
    (hin : ∀ input ∈ merkleInputs sha hashes.length hashes, input ∈ S)
    (hin' : ∀ input ∈ merkleInputs sha others.length others, input ∈ S)
    (h : merkleRoot sha hashes = merkleRoot sha others) : hashes = others := by
  rcases List.eq_nil_or_concat hashes with hnil | ⟨front, last, hconcat⟩
  · rw [hnil, List.length_nil] at hlength
    rw [hnil, List.eq_nil_of_length_eq_zero hlength.symm]
  · have hne : hashes ≠ [] := by
      rw [hconcat]
      exact List.concat_eq_append ▸ List.concat_ne_nil last front
    have hne' : others ≠ [] := by
      rintro rfl
      exact hne (List.eq_nil_of_length_eq_zero hlength)
    rw [← hlength] at hin'
    refine merkleLevels_injective hS hdigits hdigits' hlength hin hin' ?_
    rw [merkleRoot, merkleRoot, if_neg (by simpa using hne), if_neg (by simpa using hne'),
      ← hlength] at h
    have hone : (merkleLevels sha hashes.length hashes).length = 1 :=
      length_merkleLevels hne le_rfl
    have hone' : (merkleLevels sha hashes.length others).length = 1 :=
      length_merkleLevels hne' hlength.symm.le
    obtain ⟨root, hroot⟩ := List.length_eq_one_iff.mp hone
    obtain ⟨root', hroot'⟩ := List.length_eq_one_iff.mp hone'
    rw [hroot, hroot'] at h ⊢
    exact congrArg (fun root => [root]) h

end Merkle

/-! ## Logging one after the other -/

section Runs
variable {sha : Sha256} {fromStr : String → Option TransparencyEntry}

theorem hashedEntries_append (entries others : List TransparencyEntry) :
    hashedEntries (entries ++ others) = hashedEntries entries ++ hashedEntries others :=
  List.filter_append ..

theorem hashedEntries_entryAfter (previous : String) (payload : HashPayload) :
    hashedEntries [entryAfter sha previous payload] = [entryAfter sha previous payload] := rfl

theorem lastHash_concat (entries : List TransparencyEntry) (entry : TransparencyEntry) :
    lastHash (entries ++ [entry]) = entry.entryHash.getD (lastHash entries) := by
  rw [lastHash, List.reverse_concat, List.findSome?_cons]
  cases entry.entryHash with
  | none => rfl
  | some hash => rfl

/-- A verified log ends with the hash that the next entry is logged after. -/
theorem lastHash_of_chain {entries : List TransparencyEntry} {last : String}
    (h : Chain sha (hashedEntries entries) last) : last = lastHash entries := by
  induction entries using List.reverseRecOn generalizing last with
  | nil => exact chain_nil.mp h
  | append_singleton entries entry ih =>
    rw [hashedEntries_append] at h
    rw [lastHash_concat]
    cases hhash : entry.entryHash with
    | none =>
      have hpassed : hashedEntries [entry] = [] := by
        rw [hashedEntries, List.filter_singleton, hhash]
        rfl
      rw [hpassed, List.append_nil] at h
      exact ih h
    | some hash =>
      have hkept : hashedEntries [entry] = [entry] := by
        rw [hashedEntries, List.filter_singleton, hhash]
        rfl
      rw [hkept] at h
      obtain ⟨previous, -, hentry, hlast⟩ := chain_concat.mp h
      have hsome : entry.entryHash = some (hashEntry sha previous entry.payload) := by
        rw [hentry]
        rfl
      rw [hhash] at hsome
      rw [Option.getD_some, Option.some.inj hsome, hlast]

theorem chain_append_iff {entries : List TransparencyEntry} {last previous : String}
    (h : Chain sha (hashedEntries entries) last) (payload : HashPayload) :
    (∃ hash, Chain sha (hashedEntries (entries ++ [entryAfter sha previous payload])) hash) ↔
      previous = last := by
  rw [hashedEntries_append, hashedEntries_entryAfter]
  constructor
  · rintro ⟨hash, hchain⟩
    obtain ⟨before, hbefore, hentry, -⟩ := chain_concat.mp hchain
    have hsame : before = last := Except.ok.inj (hbefore.symm.trans h)
    rw [← hsame]
    exact Option.some.inj (congrArg TransparencyEntry.previousHash hentry)
  · rintro rfl
    exact ⟨_, chain_concat.mpr ⟨previous, h, rfl, rfl⟩⟩

theorem verifyChain_iff {file : Option (List UInt8)} {entries : List TransparencyEntry}
    (h : readAll fromStr file = .ok entries) :
    verifyChain sha fromStr file = .ok () ↔ ∃ last, Chain sha (hashedEntries entries) last := by
  unfold verifyChain
  rw [h]
  constructor
  · intro hverify
    obtain ⟨_, hentries, hverify⟩ := Except.bind_eq_ok.mp hverify
    obtain ⟨last, hlast, -⟩ := Except.bind_eq_ok.mp hverify
    rw [← Except.ok.inj hentries] at hlast
    exact ⟨last, hlast⟩
  · rintro ⟨last, hlast⟩
    exact Except.bind_eq_ok.mpr ⟨entries, rfl, Except.bind_eq_ok.mpr ⟨last, hlast, rfl⟩⟩

/-- A log that the next call finds in order. -/
def InOrder (sha : Sha256) (fromStr : String → Option TransparencyEntry)
    (file : Option (List UInt8)) : Prop :=
  WholeFile file ∧ verifyChain sha fromStr file = .ok ()

/-- One call: the log is in order again. -/
theorem InOrder.log (hreads : Reads fromStr) {file : Option (List UInt8)}
    (h : InOrder sha fromStr file) (install : Install) :
    ∃ bytes, log sha fromStr install file = .ok bytes ∧ InOrder sha fromStr (some bytes) := by
  obtain ⟨hwhole, hverify⟩ := h
  obtain ⟨entries, hread⟩ : ∃ entries, readAll fromStr file = .ok entries := by
    obtain ⟨content, hcontent, -⟩ := hwhole
    exact ⟨_, readAll_whole hcontent⟩
  obtain ⟨last, hchain⟩ := (verifyChain_iff hread).mp hverify
  have hlast := lastHash_of_chain hchain
  refine ⟨_, Except.bind_eq_ok.mpr ⟨entries, hread, rfl⟩, ?_⟩
  obtain ⟨hnext, others, hothers, hafter⟩ := hwhole.readAll_appendEntry hreads
    (entryAfter sha (lastHash entries) install.payload)
  obtain rfl : entries = others := Except.ok.inj (hread.symm.trans hothers)
  refine ⟨hnext, (verifyChain_iff hafter).mpr ?_⟩
  exact (chain_append_iff hchain install.payload).mpr hlast.symm

/-- Calls one after the other. -/
def logAll (sha : Sha256) (fromStr : String → Option TransparencyEntry) :
    List Install → Option (List UInt8) → Except LogError (Option (List UInt8))
  | [], file => .ok file
  | install :: rest, file => do
    let bytes ← log sha fromStr install file
    logAll sha fromStr rest (some bytes)

theorem InOrder.logAll (hreads : Reads fromStr) (installs : List Install)
    {file : Option (List UInt8)} (h : InOrder sha fromStr file) :
    ∃ result, logAll sha fromStr installs file = .ok result ∧ InOrder sha fromStr result := by
  induction installs generalizing file with
  | nil => exact ⟨file, rfl, h⟩
  | cons install rest ih =>
    obtain ⟨bytes, hlog, hbytes⟩ := h.log hreads install
    obtain ⟨result, hrest, hresult⟩ := ih hbytes
    exact ⟨result, Except.bind_eq_ok.mpr ⟨bytes, hlog, hrest⟩, hresult⟩

/-- A log of whole lines none of whose entries has a hash, the empty log among them. -/
structure Legacy (fromStr : String → Option TransparencyEntry) (file : Option (List UInt8)) :
    Prop where
  whole : WholeFile file
  unhashed : ∀ entries, readAll fromStr file = .ok entries →
    ∀ entry ∈ entries, entry.entryHash = none

theorem Legacy.inOrder {file : Option (List UInt8)} (h : Legacy fromStr file) :
    InOrder sha fromStr file := by
  obtain ⟨content, hcontent, -⟩ := h.whole
  have hread : readAll fromStr file = .ok (entriesOf fromStr content) := readAll_whole hcontent
  have hnone : hashedEntries (entriesOf fromStr content) = [] := by
    refine List.filter_eq_nil_iff.mpr fun entry hentry => ?_
    rw [h.unhashed _ hread entry hentry]
    decide
  refine ⟨h.whole, (verifyChain_iff hread).mpr ⟨genesisHash, ?_⟩⟩
  rw [hnone]
  exact chain_nil.mpr rfl

end Runs

/-! ## Tamper evidence -/

section Evidence
variable {sha : Sha256} {fromStr : String → Option TransparencyEntry}

/-- The hashes of entries. -/
def entryHashes (entries : List TransparencyEntry) : List String :=
  entries.filterMap TransparencyEntry.entryHash

/-- What is hashed to verify the entries and to make their checkpoint. -/
def hashedInputs (sha : Sha256) (entries : List TransparencyEntry) : List (List UInt8) :=
  chainInputs entries ++ merkleInputs sha (entryHashes entries).length (entryHashes entries)

theorem entryHashes_hashedEntries (entries : List TransparencyEntry) :
    entryHashes (hashedEntries entries) = entryHashes entries := by
  rw [entryHashes, hashedEntries, List.filterMap_filter]
  refine List.filterMap_congr fun entry _ => ?_
  cases entry.entryHash with
  | none => rfl
  | some hash => rfl

/-- The entries of a chain all have a hash, of sixty-four digits; the last one is where it ends. -/
theorem Chain.entryHashes {entries : List TransparencyEntry} {last : String}
    (h : Chain sha entries last) : (entryHashes entries).length = entries.length ∧
      Digits (entryHashes entries) ∧ last = (entryHashes entries).getLast?.getD genesisHash := by
  induction entries using List.reverseRecOn generalizing last with
  | nil => exact ⟨rfl, fun hash hmem => absurd hmem List.not_mem_nil, chain_nil.mp h⟩
  | append_singleton entries entry ih =>
    obtain ⟨previous, hchain, hentry, hlast⟩ := chain_concat.mp h
    obtain ⟨hlength, hdigits, -⟩ := ih hchain
    have hhash : entry.entryHash = some last := by
      rw [hentry, hlast]
      rfl
    have hhashes : Transparency.entryHashes (entries ++ [entry]) =
        Transparency.entryHashes entries ++ [last] := by
      rw [Transparency.entryHashes, List.filterMap_append]
      simp [hhash, Transparency.entryHashes]
    rw [hhashes]
    refine ⟨?_, ?_, ?_⟩
    · rw [List.length_append, List.length_append, hlength]
      rfl
    · intro hash hmem
      rcases List.mem_append.mp hmem with hfront | hend
      · exact hdigits hash hfront
      · rw [List.mem_singleton.mp hend, hlast]
        exact length_hexSha256 sha _
    · rw [List.getLast?_concat, Option.getD_some]

/-- What a checkpoint says of the entries. -/
theorem checkpoint_eq_ok {file : Option (List UInt8)} {c : TransparencyCheckpoint}
    {entries : List TransparencyEntry} (hread : readAll fromStr file = .ok entries)
    (h : checkpoint sha fromStr file = .ok c) :
    (∃ last, Chain sha (hashedEntries entries) last) ∧
      c.entryCount = (entryHashes entries).length ∧
      c.merkleRoot = merkleRoot sha (entryHashes entries) ∧
      c.latestEntryHash = (entryHashes entries).getLast? := by
  unfold checkpoint at h
  obtain ⟨_, hverify, h⟩ := Except.bind_eq_ok.mp h
  obtain ⟨others, hothers, h⟩ := Except.bind_eq_ok.mp h
  obtain rfl : entries = others := Except.ok.inj (hread.symm.trans hothers)
  rw [← Except.ok.inj h]
  exact ⟨(verifyChain_iff hread).mp hverify, rfl, rfl, rfl⟩

/-- Verified logs whose checkpoints have the same count, and the same last hash or the same root,
have the same hashed entries, when nothing that is hashed for them collides. What calls log one
after the other verifies, when there was nothing before but whole lines without hashes. -/
theorem log_tamper_evident (hreads : Reads fromStr) :
    (∀ file file' entries entries' c c',
      readAll fromStr file = .ok entries → readAll fromStr file' = .ok entries' →
      checkpoint sha fromStr file = .ok c → checkpoint sha fromStr file' = .ok c' →
      c.entryCount = c'.entryCount →
      c.latestEntryHash = c'.latestEntryHash ∨ c.merkleRoot = c'.merkleRoot →
      Set.InjOn sha.digest {input | input ∈ hashedInputs sha (hashedEntries entries) ∨
        input ∈ hashedInputs sha (hashedEntries entries')} →
      hashedEntries entries = hashedEntries entries') ∧
    ∀ installs file, Legacy fromStr file → ∃ result,
      logAll sha fromStr installs file = .ok result ∧ verifyChain sha fromStr result = .ok () := by
  constructor
  · intro file file' entries entries' c c' hread hread' hc hc' hcount hsame hinj
    obtain ⟨⟨last, hchain⟩, hnumber, hroot, hlatest⟩ := checkpoint_eq_ok hread hc
    obtain ⟨⟨last', hchain'⟩, hnumber', hroot', hlatest'⟩ := checkpoint_eq_ok hread' hc'
    obtain ⟨hlength, hdigits, hlast⟩ := hchain.entryHashes
    obtain ⟨hlength', hdigits', hlast'⟩ := hchain'.entryHashes
    have hS := hexSha256_injOn sha hinj
    rw [hnumber, hnumber', ← entryHashes_hashedEntries entries,
      ← entryHashes_hashedEntries entries'] at hcount
    have hend : last = last' := by
      rcases hsame with hhash | hmerkle
      · rw [hlatest, hlatest', ← entryHashes_hashedEntries entries,
          ← entryHashes_hashedEntries entries'] at hhash
        rw [hlast, hlast', hhash]
      · rw [hroot, hroot', ← entryHashes_hashedEntries entries,
          ← entryHashes_hashedEntries entries'] at hmerkle
        have hhashes := merkleRoot_injective hS hdigits hdigits' hcount
          (fun input hinput => Or.inl (List.mem_append_right _ hinput))
          (fun input hinput => Or.inr (List.mem_append_right _ hinput)) hmerkle
        rw [hlast, hlast', hhashes]
    rw [← hend] at hchain'
    exact hchain.injective hS hchain' (by rw [← hlength, ← hlength', hcount])
      (fun input hinput => Or.inl (List.mem_append_left _ hinput))
      (fun input hinput => Or.inr (List.mem_append_left _ hinput))
  · intro installs file hlegacy
    obtain ⟨result, hresult, horder⟩ := hlegacy.inOrder.logAll hreads installs
    exact ⟨result, hresult, horder.2⟩

/-! A log of two installs, with SHA-256 and the reader above. -/

def demoInstalls : List Install :=
  [⟨1700000000, "/home/demo/app", [("left-pad", "1.3.0", some "sha512-one")], 120⟩,
    ⟨1700000100, "/home/demo/app", [], 15⟩]

theorem log_tamper_evident_demo :
    ∃ result, logAll .fips180 entryOfStr demoInstalls none = .ok result ∧
      verifyChain .fips180 entryOfStr result = .ok () := by
  have hlegacy : Legacy entryOfStr none := by
    refine ⟨⟨"", rfl, Or.inl rfl⟩, fun entries hread entry hentry => ?_⟩
    rw [← Except.ok.inj hread] at hentry
    exact absurd hentry List.not_mem_nil
  exact (log_tamper_evident entryOfStr_line).2 demoInstalls none hlegacy

end Evidence

end Oath.Transparency
