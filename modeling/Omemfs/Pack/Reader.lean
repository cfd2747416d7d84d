/-
# Omemfs.Pack.Reader — `PackReader`: where a hash is indexed, and the bytes behind the entry.

`locate` searches the delta files newest first, then the hot index, then the one cold shard the
hash is addressed to; a cold shard that is not in the local cache yet is only fetched when the
Bloom filter does not rule the hash out.  The answer therefore goes through the cache and through
the filter.  `lookup` is the search without either: the tiers of a hash in order, straight from the
remote.  `locate_sound` says that `locate` never invents an entry; `locate_complete` says that it
finds what `lookup` finds when the filter admits the hash.
-/
import Omemfs.Pack.Remote

namespace Omemfs.Pack

open Lib

/-! ## The code -/

/-- Bytes of a pack file before its body. -/
def packBodyOffset : Nat := 2

/-- Strip the standalone escape prefix `ED E0`, if present. -/
def unescapeStandalone (b : Bytes) : Bytes :=
  match b with
  | x :: y :: rest => if x = 0xED ∧ y = 0xE0 then rest else b
  | _ => b

inductive Located where
  | entry (e : IndexEntry)
  | notFound
  | noIndexRoot

namespace Reader

/-- Search a list of index files in order, loading each through the cache. -/
def searchFiles (E : Env) (r : Remote) (h : Hash) :
    List Hash → Cache → Except Error (Option IndexEntry × Cache)
  | [], c => .ok (none, c)
  | k :: ks, c => do
      let (idx, c) ← loadIndexFile E r c k
      match idx.find h with
      | some e => pure (some e, c)
      | none => searchFiles E r h ks c

/-- Whether the recorded filter, if it is usable, rules the hash out. -/
def definitelyAbsent (E : Env) (r : Remote) (c : Cache) (ir : IndexRoot) (h : Hash) :
    Except Error (Bool × Cache) :=
  match ir.bloomHashOpt with
  | none => pure (false, c)
  | some bh => do
      let (bloom, c) ← loadBloomFilter E r c bh
      -- a structurally defective filter cannot be trusted to answer "definitely absent"
      match bloom.structuralDefect with
      | some _ => pure (false, c)
      | none => pure (!bloom.mayContain h, c)

def ofSearch : Option IndexEntry → Located
  | some e => .entry e
  | none => .notFound

/-- The cold tier: a shard in the local cache is searched at once, one that is not is fetched only
if the filter does not rule the hash out. -/
def locateCold (E : Env) (r : Remote) (c : Cache) (ir : IndexRoot) (h : Hash) :
    Except Error (Located × Cache) := do
  let shard := (IndexRoot.coldShardHashFor h ir).toList
  if shard.any (fun sh => (c sh).isSome) then
    let (found, c) ← searchFiles E r h shard c
    pure (ofSearch found, c)
  else
    let (absent, c) ← definitelyAbsent E r c ir h
    if absent then pure (.notFound, c)
    else
      let (found, c) ← searchFiles E r h shard c
      pure (ofSearch found, c)

def locate (E : Env) (r : Remote) (c : Cache) (h : Hash) : Except Error (Located × Cache) := do
  match ← readIndexRoot E r with
  | none => pure (.noIndexRoot, c)
  | some ir =>
      let (inDelta, c) ← searchFiles E r h ir.deltaHashes c
      match inDelta with
      | some e => pure (.entry e, c)
      | none =>
          let (inHot, c) ← searchFiles E r h ir.hotHashOpt.toList c
          match inHot with
          | some e => pure (.entry e, c)
          | none => locateCold E r c ir h

/-- The whole pack, fetched once and kept raw in the pack cache. -/
def cachedPack (r : Remote) (pc : Cache) (packHash : Hash) : Except Error (Bytes × Cache) :=
  match pc packHash with
  | some b => pure (b, pc)
  | none => do
      let b ← r.openRead packHash
      pure (b, Function.update pc packHash (some b))

/-- A slice of a cached pack.  An entry whose slice would leave the pack is refused before
anything is allocated for it. -/
def fetchPackSlice (r : Remote) (pc : Cache) (packHash : Hash) (offset length : UInt32) :
    Except Error (Bytes × Cache) := do
  let (pack, pc) ← cachedPack r pc packHash
  let skip := packBodyOffset + offset.toNat
  let neededEnd := skip + length.toNat
  if neededEnd > pack.length then
    throw (.invalidObject ("pack slice [offset " ++ toString offset.toNat ++ ", length " ++
      toString length.toNat ++ ") exceeds cached pack file size " ++ toString pack.length ++
      " for pack " ++ packHash.asStr))
  else pure (Bytes.slice skip length.toNat pack, pc)

def resolveEntry (r : Remote) (pc : Cache) (e : IndexEntry) (h : Hash) :
    Except Error (Bytes × Cache) :=
  match e with
  | .inline e => .ok (e.data, pc)
  | .pack e => fetchPackSlice r pc e.packHash e.offset e.length
  | .standalone _ => do
      let b ← r.openRead h
      pure (unescapeStandalone b, pc)

/-- The stored bytes of `h`, with the two caches as the call leaves them. -/
def resolve (E : Env) (r : Remote) (c pc : Cache) (h : Hash) :
    Except Error (Bytes × Cache × Cache) := do
  let (found, c) ← locate E r c h
  match found with
  | .entry e =>
      let (b, pc) ← resolveEntry r pc e h
      pure (b, c, pc)
  | .notFound => throw (.objectNotFound h.asStr)
  | .noIndexRoot =>
      let b ← r.openRead h
      pure (unescapeStandalone b, c, pc)

end Reader

/-! ## The same answers without caches and without the filter -/

/-- The index files a hash is looked up in, in order. -/
def tierHashes (ir : IndexRoot) (h : Hash) : List Hash :=
  ir.deltaHashes ++ (ir.hotHashOpt.toList ++ (IndexRoot.coldShardHashFor h ir).toList)

/-- The tiers in front of the cold one: the deltas, newest first, and the hot index. -/
def recent (ir : IndexRoot) : List Hash := ir.deltaHashes ++ ir.hotHashOpt.toList

theorem tierHashes_eq (ir : IndexRoot) (h : Hash) :
    tierHashes ir h = recent ir ++ (IndexRoot.coldShardHashFor h ir).toList :=
  (List.append_assoc ..).symm

/-- The first entry for `h` in a list of index files. -/
def searchRemote (E : Env) (r : Remote) (h : Hash) : List Hash → Except Error (Option IndexEntry)
  | [] => .ok none
  | k :: ks => do
      let idx ← readIndexFile E r k
      match idx.find h with
      | some e => pure (some e)
      | none => searchRemote E r h ks

/-- What the index says about `h`. -/
def lookup (E : Env) (r : Remote) (ir : IndexRoot) (h : Hash) : Except Error (Option IndexEntry) :=
  searchRemote E r h (tierHashes ir h)

/-- `h` has an entry in some delta file, in the hot index, or in its cold shard. -/
def Indexed (E : Env) (r : Remote) (ir : IndexRoot) (h : Hash) : Prop :=
  ∃ k ∈ tierHashes ir h, ∃ f e, readIndexFile E r k = .ok f ∧ f.find h = some e

/-- The slice a pack entry names. -/
def packSlice (r : Remote) (packHash : Hash) (offset length : UInt32) : Option Bytes := do
  let pack ← r.objects packHash
  if packBodyOffset + offset.toNat + length.toNat ≤ pack.length then
    some (Bytes.slice (packBodyOffset + offset.toNat) length.toNat pack)
  else none

/-- The stored bytes behind an entry. -/
def payload (r : Remote) (h : Hash) : IndexEntry → Option Bytes
  | .inline e => some e.data
  | .pack e => packSlice r e.packHash e.offset e.length
  | .standalone _ => (r.objects h).map unescapeStandalone

/-- The pack cache holds what the remote holds. -/
def PackFaithful (r : Remote) (pc : Cache) : Prop := ∀ ⦃h b⦄, pc h = some b → r.objects h = some b

section Search

variable {E : Env} {r : Remote} {h : Hash}

theorem searchRemote_append {ks ks' : List Hash} {e : IndexEntry} :
    searchRemote E r h (ks ++ ks') = .ok (some e) ↔
      searchRemote E r h ks = .ok (some e) ∨
      searchRemote E r h ks = .ok none ∧ searchRemote E r h ks' = .ok (some e) := by
  induction ks with
  | nil => simp [searchRemote]
  | cons k ks ih =>
      rw [List.cons_append, searchRemote, searchRemote]
      cases hf : readIndexFile E r k with
      | error _ => simp [bind, Except.bind]
      | ok idx =>
          cases he : idx.find h with
          | some e' => simp [bind, Except.bind, he, pure, Except.pure]
          | none => simpa [bind, Except.bind, he] using ih

theorem searchRemote_append_of_none {ks ks' : List Hash} (hs : searchRemote E r h ks = .ok none) :
    searchRemote E r h (ks ++ ks') = searchRemote E r h ks' := by
  induction ks with
  | nil => rfl
  | cons k ks ih =>
      rcases bind_eq_ok.mp hs with ⟨f, hf, hs⟩
      cases he : f.find h with
      | some e =>
          rw [he] at hs
          cases hs
      | none =>
          rw [he] at hs
          rw [List.cons_append, searchRemote, hf]
          simp only [bind, Except.bind, he]
          exact ih hs

theorem searchRemote_tail {k : Hash} {ks : List Hash}
    (hs : searchRemote E r h (k :: ks) = .ok none) : searchRemote E r h ks = .ok none := by
  rcases bind_eq_ok.mp hs with ⟨f, hf, hs⟩
  cases he : f.find h with
  | some e =>
      rw [he] at hs
      cases hs
  | none =>
      rw [he] at hs
      exact hs

/-- When every file loads, the search has an answer. -/
theorem searchRemote_total {ks : List Hash} (hall : ∀ k ∈ ks, ∃ f, readIndexFile E r k = .ok f)
    (h : Hash) : ∃ o, searchRemote E r h ks = .ok o := by
  induction ks with
  | nil => exact ⟨none, rfl⟩
  | cons k ks ih =>
      rcases hall k (List.mem_cons_self ..) with ⟨f, hf⟩
      cases he : f.find h with
      | some e => exact ⟨some e, bind_eq_ok.mpr ⟨f, hf, by rw [he]; rfl⟩⟩
      | none =>
          rcases ih fun k' hk' => hall k' (List.mem_cons_of_mem k hk') with ⟨o, ho⟩
          exact ⟨o, bind_eq_ok.mpr ⟨f, hf, by rw [he]; exact ho⟩⟩

theorem searchRemote_singleton {k : Hash} {f : IndexFile} (hf : readIndexFile E r k = .ok f) :
    searchRemote E r h [k] = .ok (f.find h) := by
  rw [searchRemote, hf]
  cases he : f.find h with
  | some e => simp only [bind, Except.bind, he]; rfl
  | none => simp only [bind, Except.bind, he]; rfl

/-- A found entry comes from one of the files. -/
theorem exists_file_of_searchRemote {ks : List Hash} {e : IndexEntry}
    (hs : searchRemote E r h ks = .ok (some e)) :
    ∃ k ∈ ks, ∃ f, readIndexFile E r k = .ok f ∧ f.find h = some e := by
  induction ks with
  | nil => cases hs
  | cons k ks ih =>
      obtain ⟨f, hf, hs⟩ := bind_eq_ok.mp hs
      cases he : f.find h with
      | some e' =>
          rw [he] at hs
          cases hs
          exact ⟨k, List.mem_cons_self .., f, hf, he⟩
      | none =>
          rw [he] at hs
          obtain ⟨k', hk', rest⟩ := ih hs
          exact ⟨k', List.mem_cons_of_mem k hk', rest⟩

/-- When every file loads, the search finds an entry as soon as one file has one. -/
theorem searchRemote_of_mem {ks : List Hash} (hall : ∀ k ∈ ks, ∃ f, readIndexFile E r k = .ok f)
    {k : Hash} (hk : k ∈ ks) {f : IndexFile} {e : IndexEntry} (hf : readIndexFile E r k = .ok f)
    (he : f.find h = some e) : ∃ e', searchRemote E r h ks = .ok (some e') := by
  induction ks with
  | nil => cases hk
  | cons j ks ih =>
      obtain ⟨g, hg⟩ := hall j (List.mem_cons_self ..)
      cases hgj : g.find h with
      | some e' => exact ⟨e', bind_eq_ok.mpr ⟨g, hg, by rw [hgj]; rfl⟩⟩
      | none =>
          have hkj : k ≠ j := by
            rintro rfl
            rw [hg] at hf
            cases hf
            rw [hgj] at he
            cases he
          obtain ⟨e', he'⟩ := ih (fun k' hk' => hall k' (List.mem_cons_of_mem j hk'))
            ((List.mem_cons.mp hk).resolve_left hkj)
          exact ⟨e', bind_eq_ok.mpr ⟨g, hg, by rw [hgj]; exact he'⟩⟩

/-- When every file loads and none has an entry, the search answers none. -/
theorem searchRemote_none {ks : List Hash} (hall : ∀ k ∈ ks, ∃ f, readIndexFile E r k = .ok f)
    (hno : ∀ k ∈ ks, ∀ f, readIndexFile E r k = .ok f → f.find h = none) :
    searchRemote E r h ks = .ok none := by
  induction ks with
  | nil => rfl
  | cons k ks ih =>
      obtain ⟨f, hf⟩ := hall k (List.mem_cons_self ..)
      have hrest := ih (fun k' hk' => hall k' (List.mem_cons_of_mem k hk'))
        (fun k' hk' => hno k' (List.mem_cons_of_mem k hk'))
      exact bind_eq_ok.mpr ⟨f, hf, by rw [hno k (List.mem_cons_self ..) f hf]; exact hrest⟩

theorem Indexed.of_lookup {ir : IndexRoot} {e : IndexEntry}
    (hl : lookup E r ir h = .ok (some e)) : Indexed E r ir h := by
  obtain ⟨k, hk, f, hf, he⟩ := exists_file_of_searchRemote hl
  exact ⟨k, hk, f, e, hf, he⟩

theorem Indexed.mono {r' : Remote} (hle : r.Le r') {ir : IndexRoot} (hx : Indexed E r ir h) :
    Indexed E r' ir h := by
  obtain ⟨k, hk, f, e, hf, he⟩ := hx
  exact ⟨k, hk, f, e, readIndexFile_mono hle hf, he⟩

theorem hash_of_lookup {ir : IndexRoot} {e : IndexEntry}
    (hl : lookup E r ir h = .ok (some e)) : e.hash = h := by
  obtain ⟨k, _, f, _, he⟩ := exists_file_of_searchRemote hl
  exact IndexFile.hash_of_find he

theorem searchRemote_mono {r' : Remote} (hle : r.Le r') {ks : List Hash} {o : Option IndexEntry}
    (hs : searchRemote E r h ks = .ok o) : searchRemote E r' h ks = .ok o := by
  induction ks with
  | nil => exact hs
  | cons k ks ih =>
      obtain ⟨f, hf, hs⟩ := bind_eq_ok.mp hs
      refine bind_eq_ok.mpr ⟨f, readIndexFile_mono hle hf, ?_⟩
      cases he : f.find h with
      | some e => simpa only [he] using hs
      | none =>
          simp only [he] at hs ⊢
          exact ih hs

theorem packSlice_mono {r' : Remote} (hle : r.Le r') {ph : Hash} {o l : UInt32} {b : Bytes}
    (hp : packSlice r ph o l = some b) : packSlice r' ph o l = some b := by
  unfold packSlice at hp ⊢
  cases hobj : r.objects ph with
  | none =>
      rw [hobj] at hp
      cases hp
  | some pack =>
      rw [hobj] at hp
      rw [hle.objects hobj]
      exact hp

theorem payload_mono {r' : Remote} (hle : r.Le r') {e : IndexEntry} {b : Bytes}
    (hp : payload r h e = some b) : payload r' h e = some b := by
  cases e with
  | inline e => exact hp
  | pack e => exact packSlice_mono hle hp
  | standalone e =>
      unfold payload at hp ⊢
      cases hobj : r.objects h with
      | none =>
          rw [hobj] at hp
          cases hp
      | some x =>
          rw [hobj] at hp
          rw [hle.objects hobj]
          exact hp

end Search

namespace Reader

section Refinement

variable {E : Env} {r : Remote} {c : Cache} {h : Hash}

theorem searchFiles_sound (hc : Faithful E r c) {ks : List Hash} {o : Option IndexEntry}
    {c' : Cache} (hs : searchFiles E r h ks c = .ok (o, c')) :
    searchRemote E r h ks = .ok o ∧ Faithful E r c' := by
  induction ks generalizing c with
  | nil =>
      cases hs
      exact ⟨rfl, hc⟩
  | cons k ks ih =>
      obtain ⟨⟨f, c₁⟩, hf, hs⟩ := bind_eq_ok.mp hs
      obtain ⟨hread, hc₁⟩ := loadIndexFile_sound hc hf
      cases he : f.find h with
      | some e =>
          simp only [he] at hs
          cases hs
          exact ⟨bind_eq_ok.mpr ⟨f, hread, by rw [he]; rfl⟩, hc₁⟩
      | none =>
          simp only [he] at hs
          obtain ⟨hrest, hc'⟩ := ih hc₁ hs
          exact ⟨bind_eq_ok.mpr ⟨f, hread, by rw [he]; exact hrest⟩, hc'⟩

theorem searchFiles_complete (hc : Faithful E r c) {ks : List Hash} {o : Option IndexEntry}
    (hs : searchRemote E r h ks = .ok o) :
    ∃ c', searchFiles E r h ks c = .ok (o, c') ∧ Faithful E r c' := by
  induction ks generalizing c with
  | nil =>
      cases hs
      exact ⟨c, rfl, hc⟩
  | cons k ks ih =>
      obtain ⟨f, hf, hs⟩ := bind_eq_ok.mp hs
      obtain ⟨c₁, hl, hc₁⟩ := loadIndexFile_complete hc hf
      cases he : f.find h with
      | some e =>
          simp only [he] at hs
          cases hs
          exact ⟨c₁, bind_eq_ok.mpr ⟨_, hl, by simp only [he]; rfl⟩, hc₁⟩
      | none =>
          simp only [he] at hs
          obtain ⟨c', hrest, hc'⟩ := ih hc₁ hs
          exact ⟨c', bind_eq_ok.mpr ⟨_, hl, by simp only [he]; exact hrest⟩, hc'⟩

theorem definitelyAbsent_faithful (hc : Faithful E r c) {ir : IndexRoot} {b : Bool} {c' : Cache}
    (hd : definitelyAbsent E r c ir h = .ok (b, c')) : Faithful E r c' := by
  unfold definitelyAbsent at hd
  cases hb : ir.bloomHashOpt with
  | none =>
      rw [hb] at hd
      cases hd
      exact hc
  | some bh =>
      rw [hb] at hd
      obtain ⟨⟨bf, c₁⟩, hl, hd⟩ := bind_eq_ok.mp hd
      have hc₁ := (loadBloomFilter_sound hc hl).2
      cases hdef : bf.structuralDefect with
      | none =>
          simp only [hdef] at hd
          cases hd
          exact hc₁
      | some s =>
          simp only [hdef] at hd
          cases hd
          exact hc₁

/-- The filter recorded in `ir` admits `h`: none is recorded, or the recorded one loads and is
defective or may contain `h`. -/
def FilterAdmits (E : Env) (r : Remote) (ir : IndexRoot) (h : Hash) : Prop :=
  ∀ bh, ir.bloomHashOpt = some bh →
    ∃ bf, readBloomFilter E r bh = .ok bf ∧ (bf.structuralDefect.isSome ∨ bf.mayContain h)

theorem definitelyAbsent_of_admits (hc : Faithful E r c) {ir : IndexRoot}
    (hadm : FilterAdmits E r ir h) :
    ∃ c', definitelyAbsent E r c ir h = .ok (false, c') ∧ Faithful E r c' := by
  unfold definitelyAbsent
  cases hb : ir.bloomHashOpt with
  | none => exact ⟨c, rfl, hc⟩
  | some bh =>
      obtain ⟨bf, hbf, hok⟩ := hadm bh hb
      obtain ⟨c', hl, hc'⟩ := loadBloomFilter_complete hc hbf
      refine ⟨c', bind_eq_ok.mpr ⟨_, hl, ?_⟩, hc'⟩
      cases hdef : bf.structuralDefect with
      | some s => simp only [hdef]; rfl
      | none =>
          have hmay : bf.mayContain h = true := by
            rcases hok with hd | hm
            · rw [hdef] at hd
              cases hd
            · exact hm
          simp only [hdef, hmay]
          rfl

theorem locateCold_sound (hc : Faithful E r c) {ir : IndexRoot} {e : IndexEntry} {c' : Cache}
    (hl : locateCold E r c ir h = .ok (.entry e, c')) :
    searchRemote E r h (IndexRoot.coldShardHashFor h ir).toList = .ok (some e) ∧
      Faithful E r c' := by
  unfold locateCold at hl
  simp only at hl
  split_ifs at hl with hcached
  · obtain ⟨⟨found, c₁⟩, hs, hl⟩ := bind_eq_ok.mp hl
    obtain ⟨hs, hc₁⟩ := searchFiles_sound hc hs
    cases found with
    | none => cases hl
    | some e' =>
        cases hl
        exact ⟨hs, hc₁⟩
  · obtain ⟨⟨absent, c₁⟩, hd, hl⟩ := bind_eq_ok.mp hl
    have hc₁ := definitelyAbsent_faithful hc hd
    cases absent with
    | true => cases hl
    | false =>
        obtain ⟨⟨found, c₂⟩, hs, hl⟩ := bind_eq_ok.mp hl
        obtain ⟨hs, hc₂⟩ := searchFiles_sound hc₁ hs
        cases found with
        | none => cases hl
        | some e' =>
            cases hl
            exact ⟨hs, hc₂⟩

theorem locateCold_complete (hc : Faithful E r c) {ir : IndexRoot} {e : IndexEntry}
    (hs : searchRemote E r h (IndexRoot.coldShardHashFor h ir).toList = .ok (some e))
    (hadm : FilterAdmits E r ir h) :
    ∃ c', locateCold E r c ir h = .ok (.entry e, c') ∧ Faithful E r c' := by
  unfold locateCold
  simp only
  split_ifs with hcached
  · obtain ⟨c', hl, hc'⟩ := searchFiles_complete hc hs
    exact ⟨c', bind_eq_ok.mpr ⟨_, hl, rfl⟩, hc'⟩
  · obtain ⟨c₁, hd, hc₁⟩ := definitelyAbsent_of_admits hc hadm
    obtain ⟨c', hl, hc'⟩ := searchFiles_complete hc₁ hs
    exact ⟨c', bind_eq_ok.mpr ⟨_, hd, bind_eq_ok.mpr ⟨_, hl, rfl⟩⟩, hc'⟩

theorem locateCold_ne_noIndexRoot (c : Cache) (ir : IndexRoot) (c' : Cache) :
    locateCold E r c ir h ≠ .ok (.noIndexRoot, c') := by
  intro hl
  unfold locateCold at hl
  simp only at hl
  split_ifs at hl
  · obtain ⟨⟨found, c₁⟩, _, hl⟩ := bind_eq_ok.mp hl
    cases found <;> cases hl
  · obtain ⟨⟨absent, c₁⟩, _, hl⟩ := bind_eq_ok.mp hl
    cases absent with
    | true => cases hl
    | false =>
        obtain ⟨⟨found, c₂⟩, _, hl⟩ := bind_eq_ok.mp hl
        cases found <;> cases hl

/-- **`locate_sound`** — an entry `locate` answers is the one the index tiers give. -/
theorem locate_sound (hc : Faithful E r c) {e : IndexEntry} {c' : Cache}
    (hl : locate E r c h = .ok (.entry e, c')) :
    ∃ ir, readIndexRoot E r = .ok (some ir) ∧ lookup E r ir h = .ok (some e) ∧
      Faithful E r c' := by
  obtain ⟨root, hroot, hl⟩ := bind_eq_ok.mp hl
  cases root with
  | none => cases hl
  | some ir =>
      refine ⟨ir, hroot, ?_⟩
      obtain ⟨⟨inDelta, c₁⟩, hd, hl⟩ := bind_eq_ok.mp hl
      replace ⟨hd, hc₁⟩ := searchFiles_sound hc hd
      cases inDelta with
      | some e' =>
          cases hl
          exact ⟨searchRemote_append.mpr (Or.inl hd), hc₁⟩
      | none =>
          obtain ⟨⟨inHot, c₂⟩, hh, hl⟩ := bind_eq_ok.mp hl
          replace ⟨hh, hc₂⟩ := searchFiles_sound hc₁ hh
          cases inHot with
          | some e' =>
              cases hl
              refine ⟨searchRemote_append.mpr (Or.inr ⟨hd, ?_⟩), hc₂⟩
              exact searchRemote_append.mpr (Or.inl hh)
          | none =>
              obtain ⟨hcold, hc₃⟩ := locateCold_sound hc₂ hl
              refine ⟨searchRemote_append.mpr (Or.inr ⟨hd, ?_⟩), hc₃⟩
              exact searchRemote_append.mpr (Or.inr ⟨hh, hcold⟩)

/-- **`locate_complete`** — what the tiers give is located, from any faithful cache, when the
recorded filter admits the hashes of the cold tier. -/
theorem locate_complete (hc : Faithful E r c) {ir : IndexRoot} {e : IndexEntry}
    (hroot : readIndexRoot E r = .ok (some ir)) (hl : lookup E r ir h = .ok (some e))
    (hadm : searchRemote E r h (recent ir) = .ok none → FilterAdmits E r ir h) :
    ∃ c', locate E r c h = .ok (.entry e, c') ∧ Faithful E r c' := by
  rcases searchRemote_append.mp hl with hd | ⟨hd, hrest⟩
  · obtain ⟨c₁, hs, hc₁⟩ := searchFiles_complete hc hd
    exact ⟨c₁, bind_eq_ok.mpr ⟨_, hroot, bind_eq_ok.mpr ⟨_, hs, rfl⟩⟩, hc₁⟩
  · obtain ⟨c₁, hs₁, hc₁⟩ := searchFiles_complete hc hd
    rcases searchRemote_append.mp hrest with hh | ⟨hh, hcold⟩
    · obtain ⟨c₂, hs₂, hc₂⟩ := searchFiles_complete hc₁ hh
      exact ⟨c₂, bind_eq_ok.mpr ⟨_, hroot, bind_eq_ok.mpr ⟨_, hs₁,
        bind_eq_ok.mpr ⟨_, hs₂, rfl⟩⟩⟩, hc₂⟩
    · obtain ⟨c₂, hs₂, hc₂⟩ := searchFiles_complete hc₁ hh
      have hrecent : searchRemote E r h (recent ir) = .ok none :=
        (searchRemote_append_of_none hd).trans hh
      obtain ⟨c₃, hs₃, hc₃⟩ := locateCold_complete hc₂ hcold (hadm hrecent)
      exact ⟨c₃, bind_eq_ok.mpr ⟨_, hroot, bind_eq_ok.mpr ⟨_, hs₁,
        bind_eq_ok.mpr ⟨_, hs₂, hs₃⟩⟩⟩, hc₃⟩

theorem cachedPack_sound {pc pc' : Cache} (hpc : PackFaithful r pc) {ph : Hash} {b : Bytes}
    (hp : cachedPack r pc ph = .ok (b, pc')) : r.objects ph = some b := by
  unfold cachedPack at hp
  cases hch : pc ph with
  | some x =>
      rw [hch] at hp
      cases hp
      exact hpc hch
  | none =>
      rw [hch] at hp
      obtain ⟨x, hx, hp⟩ := bind_eq_ok.mp hp
      cases hp
      exact Remote.openRead_eq_ok.mp hx

theorem cachedPack_complete {pc : Cache} (hpc : PackFaithful r pc) {ph : Hash} {b : Bytes}
    (hb : r.objects ph = some b) : ∃ pc', cachedPack r pc ph = .ok (b, pc') := by
  unfold cachedPack
  cases hch : pc ph with
  | some x =>
      have hx : x = b := Option.some.inj ((hpc hch).symm.trans hb)
      exact ⟨pc, by rw [hx]; rfl⟩
  | none => exact ⟨_, bind_eq_ok.mpr ⟨b, Remote.openRead_eq_ok.mpr hb, rfl⟩⟩

theorem fetchPackSlice_sound {pc pc' : Cache} (hpc : PackFaithful r pc) {ph : Hash}
    {o l : UInt32} {b : Bytes} (hf : fetchPackSlice r pc ph o l = .ok (b, pc')) :
    packSlice r ph o l = some b := by
  obtain ⟨⟨pack, pc₁⟩, hp, hf⟩ := bind_eq_ok.mp hf
  have hobj := cachedPack_sound hpc hp
  simp only at hf
  split_ifs at hf with hend
  cases hf
  simp only [packSlice, hobj, bind, Option.bind, not_lt.mp hend, if_true]

theorem fetchPackSlice_complete {pc : Cache} (hpc : PackFaithful r pc) {ph : Hash}
    {o l : UInt32} {b : Bytes} (hb : packSlice r ph o l = some b) :
    ∃ pc', fetchPackSlice r pc ph o l = .ok (b, pc') := by
  obtain ⟨pack, hobj, hb⟩ := Option.bind_eq_some_iff.mp hb
  obtain ⟨pc', hp⟩ := cachedPack_complete hpc hobj
  split_ifs at hb with hend
  cases hb
  exact ⟨pc', bind_eq_ok.mpr ⟨_, hp, by simp only [not_lt.mpr hend, if_false]; rfl⟩⟩

/-- **`resolveEntry_sound`** — through a faithful pack cache the bytes are those behind the
entry. -/
theorem resolveEntry_sound {pc pc' : Cache} (hpc : PackFaithful r pc) {e : IndexEntry} {b : Bytes}
    (hr : resolveEntry r pc e h = .ok (b, pc')) : payload r h e = some b := by
  cases e with
  | inline e =>
      cases hr
      rfl
  | pack e => exact fetchPackSlice_sound hpc hr
  | standalone e =>
      obtain ⟨x, hx, hr⟩ := bind_eq_ok.mp hr
      cases hr
      rw [payload, Remote.openRead_eq_ok.mp hx]
      rfl

theorem resolveEntry_complete {pc : Cache} (hpc : PackFaithful r pc) {e : IndexEntry} {b : Bytes}
    (hb : payload r h e = some b) : ∃ pc', resolveEntry r pc e h = .ok (b, pc') := by
  cases e with
  | inline e =>
      cases hb
      exact ⟨pc, rfl⟩
  | pack e => exact fetchPackSlice_complete hpc hb
  | standalone e =>
      obtain ⟨x, hx, rfl⟩ := Option.map_eq_some_iff.mp hb
      exact ⟨pc, bind_eq_ok.mpr ⟨x, Remote.openRead_eq_ok.mpr hx, rfl⟩⟩

/-- A hash that resolves through some faithful caches has an entry with those bytes behind it. -/
theorem resolve_sound {pc : Cache} (hc : Faithful E r c) (hpc : PackFaithful r pc) {ir : IndexRoot}
    (hroot : readIndexRoot E r = .ok (some ir)) {b : Bytes} {out : Cache × Cache}
    (hr : resolve E r c pc h = .ok (b, out)) :
    ∃ e, lookup E r ir h = .ok (some e) ∧ payload r h e = some b := by
  obtain ⟨⟨found, c₁⟩, hl, hr⟩ := bind_eq_ok.mp hr
  cases found with
  | entry e =>
      obtain ⟨ir', hroot', hlook, _⟩ := locate_sound hc hl
      rw [hroot] at hroot'
      cases hroot'
      obtain ⟨⟨b', pc'⟩, he, hr⟩ := bind_eq_ok.mp hr
      cases hr
      exact ⟨e, hlook, resolveEntry_sound hpc he⟩
  | notFound => cases hr
  | noIndexRoot =>
      obtain ⟨root, hroot', hl⟩ := bind_eq_ok.mp hl
      rw [hroot] at hroot'
      cases hroot'
      obtain ⟨⟨inDelta, c₂⟩, _, hl⟩ := bind_eq_ok.mp hl
      cases inDelta with
      | some e => cases hl
      | none =>
          obtain ⟨⟨inHot, c₃⟩, _, hl⟩ := bind_eq_ok.mp hl
          cases inHot with
          | some e => cases hl
          | none => exact (locateCold_ne_noIndexRoot _ _ _ hl).elim

/-- `h` reads back as `b`, whatever the caches of the reader hold. -/
def Resolves (E : Env) (r : Remote) (h : Hash) (b : Bytes) : Prop :=
  ∀ c pc, Faithful E r c → PackFaithful r pc → ∃ out, resolve E r c pc h = .ok (b, out)

/-- `h` reads back as `b` through some caches. -/
def Readable (E : Env) (r : Remote) (h : Hash) (b : Bytes) : Prop :=
  ∃ c pc out, Faithful E r c ∧ PackFaithful r pc ∧ resolve E r c pc h = .ok (b, out)

theorem Resolves.readable {b : Bytes} (hr : Resolves E r h b) : Readable E r h b := by
  have hpc : PackFaithful r fun _ => none := fun _ _ h => nomatch h
  rcases hr _ _ (faithful_empty E r) hpc with ⟨out, hout⟩
  exact ⟨_, _, out, faithful_empty E r, hpc, hout⟩

/-- **`resolves_of_lookup`** — an indexed hash the filter admits reads back as the bytes behind its
entry. -/
theorem resolves_of_lookup {ir : IndexRoot} (hroot : readIndexRoot E r = .ok (some ir))
    {e : IndexEntry} (hl : lookup E r ir h = .ok (some e)) (hadm : FilterAdmits E r ir h)
    {b : Bytes} (hb : payload r h e = some b) : Resolves E r h b := by
  intro c pc hc hpc
  obtain ⟨c', hloc, _⟩ := locate_complete hc hroot hl fun _ => hadm
  obtain ⟨pc', hres⟩ := resolveEntry_complete hpc hb
  exact ⟨(c', pc'), bind_eq_ok.mpr ⟨_, hloc, bind_eq_ok.mpr ⟨_, hres, rfl⟩⟩⟩

end Refinement

end Reader

end Omemfs.Pack
