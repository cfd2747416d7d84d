/-
# Omemfs.Store.Cached — whether a blob can be read from the local cache alone.

An interrupted transfer can leave a manifest without its chunks, so a blob counts as cached when its
object is there and every chunk its manifest names is.  Most objects are not read for that: two leading
bytes of the encoded object rule a manifest out.

The answer is right in both directions (`blobFullyCached_spec`), for a cache that holds any of the
objects that were ever written to it.
-/
import Omemfs.Store.Chunk

namespace Omemfs.Store

open Lib

/-! ## The test -/

/-- The local cache is written without a key. -/
def keyless (E : Pack.Env) : Pack.Env := { E with key := none }

/-- The two leading bytes prove that the object is no manifest: it is neither marked as one nor
compressed. -/
def peekRulesOutManifest (stored : Bytes) : Bool :=
  match stored with
  | a :: b :: _ =>
      if [a, b] = Codec.typeTagManifest then false
      else !(a == 0xED && (b == 0xDE || b == 0xDF))
  | _ => true

def blobFullyCached (C : Codec) (E : Pack.Env) (S : Objects) (h : Hash) : Bool :=
  match S.get h with
  | none => false
  | some stored =>
      if peekRulesOutManifest stored then true
      else
        match storeRead C (keyless E) S h with
        | .error _ => false
        | .ok raw =>
            match Codec.deserialiseManifest raw with
            | none => true
            | some chunkHashes => chunkHashes.all fun k => (S.get k).isSome

/-! ## What is in the cache -/

/-- One `store_write`: a whole blob, the manifest of a blob, or a chunk. -/
inductive Written where
  | blob (content : Bytes)
  | manifest (content : Bytes) (chunks : List Bytes)
  | chunk (bytes : Bytes) (fits : bytes.length ≤ cdcMax)

namespace Written

def hash (E : Pack.Env) : Written → Hash
  | .blob content => blobHash E content
  | .manifest content _ => blobHash E content
  | .chunk bytes _ => chunkHash E bytes

def data (E : Pack.Env) : Written → Bytes
  | .blob content => serialiseBlob content
  | .manifest _ chunks => Codec.serialiseManifest (chunks.map (chunkHash E))
  | .chunk bytes _ => serialiseChunk bytes

/-- Everything whose hash the write uses. -/
def hashed : Written → List Bytes
  | .blob content => [typeTagBlob ++ content]
  | .manifest content chunks => (typeTagBlob ++ content) :: chunks.map serialiseChunk
  | .chunk bytes _ => [serialiseChunk bytes]

end Written

/-- Every object of the cache comes from one of the writes; any of them may be missing. -/
def HoldsWrites (C : Codec) (E : Pack.Env) (ws : List Written) (S : Objects) : Prop :=
  ∀ h v, S.get h = some v → ∃ w ∈ ws, w.hash E = h ∧ v = C.encode (keyless E) (w.data E) h

/-- The hash function tells apart what the writes hash. -/
def TellsApart (E : Pack.Env) (ws : List Written) : Prop :=
  ∀ a ∈ ws.flatMap Written.hashed, ∀ b ∈ ws.flatMap Written.hashed, E.sha256 a = E.sha256 b → a = b

section Cached

variable {C : Codec} {E : Pack.Env} {ws : List Written} {S : Objects}

/-- Only a manifest is read as one. -/
theorem Written.deserialiseManifest_data (w : Written) :
    Codec.deserialiseManifest (w.data E) = match w with
      | .manifest _ chunks => some (chunks.map (chunkHash E))
      | _ => none := by
  cases w with
  | blob content => exact deserialiseManifest_serialiseBlob content
  | manifest content chunks => exact Codec.deserialiseManifest_serialiseManifest _
  | chunk bytes fits => rfl

/-- An object that is not compressed shows its tag. -/
theorem peek_of_manifest_raw (hashes : List Hash) :
    peekRulesOutManifest (Codec.escapeRawOwned (Codec.serialiseManifest hashes)) = false := by
  have hplain : Codec.needsEscape (Codec.serialiseManifest hashes) = false := rfl
  rw [Codec.escapeRawOwned, if_neg (by rw [hplain]; exact Bool.false_ne_true)]
  rfl

/-- **`peek_sound`** — what the leading bytes rule out is no manifest, and is readable. -/
theorem peek_sound (w : Written) {h : Hash}
    (hpeek : peekRulesOutManifest (C.encode (keyless E) (w.data E) h) = true) :
    C.decode (keyless E) (C.encode (keyless E) (w.data E) h) h = .ok (w.data E) ∧
      Codec.deserialiseManifest (w.data E) = none := by
  have hencode : C.encode (keyless E) (w.data E) h = Codec.compress C (w.data E) := rfl
  have hdecode : ∀ b, C.decode (keyless E) b h = Codec.decompress C b := fun _ => rfl
  have hraw : Codec.compress C (w.data E) = Codec.escapeRawOwned (w.data E) := by
    rw [hencode] at hpeek
    unfold Codec.compress at hpeek ⊢
    simp only at hpeek ⊢
    split_ifs at hpeek ⊢
    · cases hpeek
    · cases hpeek
    · rfl
  rw [hencode, hdecode, hraw]
  refine ⟨Codec.decompress_escapeRawOwned C _, ?_⟩
  cases w with
  | blob content => exact deserialiseManifest_serialiseBlob content
  | chunk bytes fits => rfl
  | manifest content chunks =>
      rw [hencode, hraw, Written.data, peek_of_manifest_raw] at hpeek
      cases hpeek

/-- A chunk that a manifest names is in the cache as this chunk. -/
theorem chunk_of_get (hS : HoldsWrites C E ws S) (hno : TellsApart E ws) {content : Bytes}
    {chunks : List Bytes} (hw : .manifest content chunks ∈ ws) {c : Bytes} (hc : c ∈ chunks) {v : Bytes}
    (hv : S.get (chunkHash E c) = some v) :
    c.length ≤ cdcMax ∧ v = C.encode (keyless E) (serialiseChunk c) (chunkHash E c) := by
  obtain ⟨w, hmem, hhash, rfl⟩ := hS _ _ hv
  have hcin : serialiseChunk c ∈ ws.flatMap Written.hashed := by
    refine List.mem_flatMap.mpr ⟨_, hw, ?_⟩
    exact List.mem_cons_of_mem _ (List.mem_map_of_mem hc)
  have hin : ∀ b, w.hashed = [b] ∨ w.hashed.head? = some b → b ∈ ws.flatMap Written.hashed := by
    rintro b (hb | hb)
    · exact List.mem_flatMap.mpr ⟨w, hmem, by simp [hb]⟩
    · exact List.mem_flatMap.mpr ⟨w, hmem, List.mem_of_mem_head? hb⟩
  -- a blob's hash is taken of other bytes than a chunk's
  have htags : ∀ content : Bytes, typeTagBlob ++ content ≠ serialiseChunk c := by
    intro content heq
    have hsecond := congrArg (fun l => l[1]?) heq
    revert hsecond
    simp [typeTagBlob, serialiseChunk, typeTagChunk]
  cases w with
  | blob content => exact absurd (hno _ (hin _ (.inr rfl)) _ hcin hhash) (htags content)
  | manifest content chunks => exact absurd (hno _ (hin _ (.inr rfl)) _ hcin hhash) (htags content)
  | chunk bytes fits =>
      have heq := hno (serialiseChunk bytes) (hin _ (.inl rfl)) _ hcin hhash
      obtain rfl := List.append_cancel_left heq
      exact ⟨fits, rfl⟩

theorem forEachBlobChunk_of_pieces {h : Hash} {pieces : List Bytes}
    (hp : forEachSerialisedChunk C (keyless E) S h = .ok pieces) :
    ∃ out, forEachBlobChunk C (keyless E) S h = .ok out := by
  rw [forEachBlobChunk, hp]
  cases pieces with
  | nil => exact ⟨[], rfl⟩
  | cons first rest => exact ⟨_, rfl⟩

/-- What the cache can tell of a blob: its object is read, and the chunks of its manifest are there. -/
theorem forEachSerialisedChunk_of_there (hS : HoldsWrites C E ws S) (hno : TellsApart E ws) {w : Written}
    (hw : w ∈ ws) {h : Hash} (hread : storeRead C (keyless E) S h = .ok (w.data E))
    (hthere : ∀ chunkHashes, Codec.deserialiseManifest (w.data E) = some chunkHashes →
      ∀ k ∈ chunkHashes, (S.get k).isSome = true) :
    ∃ pieces, forEachSerialisedChunk C (keyless E) S h = .ok pieces := by
  have hmanifest := w.deserialiseManifest_data (E := E)
  unfold forEachSerialisedChunk
  rw [hread]
  simp only [bind, Except.bind]
  cases w with
  | blob content =>
      rw [hmanifest]
      exact ⟨_, rfl⟩
  | chunk bytes fits =>
      rw [hmanifest]
      exact ⟨_, rfl⟩
  | manifest content chunks =>
      rw [hmanifest] at hthere ⊢
      have hstored : ∀ c ∈ chunks, ∃ v, S.get (chunkHash E c) = some v := fun c hc =>
        Option.isSome_iff_exists.mp (hthere _ rfl _ (List.mem_map_of_mem hc))
      refine ⟨chunks, @readChunks_of_stored C (keyless E) S chunks ?_ ?_⟩
      · intro c hc
        obtain ⟨v, hv⟩ := hstored c hc
        exact (chunk_of_get hS hno hw hc hv).1
      · intro c hc
        obtain ⟨v, hv⟩ := hstored c hc
        show S.get (chunkHash E c) = _
        rw [hv, (chunk_of_get hS hno hw hc hv).2]
        rfl

/-- **`blobFullyCached_spec`** — a blob that counts as cached is read, and one whose objects are there
and readable counts as cached. -/
theorem blobFullyCached_spec (hS : HoldsWrites C E ws S) (hno : TellsApart E ws) (h : Hash) :
    (blobFullyCached C E S h = true → ∃ out, forEachBlobChunk C (keyless E) S h = .ok out) ∧
    ((∃ raw, storeRead C (keyless E) S h = .ok raw ∧
        ∀ chunkHashes, Codec.deserialiseManifest raw = some chunkHashes →
          ∀ k ∈ chunkHashes, ∃ tagged, storeRead C (keyless E) S k = .ok tagged) →
      blobFullyCached C E S h = true) := by
  have hisSome : ∀ k tagged, storeRead C (keyless E) S k = .ok tagged → (S.get k).isSome = true := by
    intro k tagged hk
    unfold storeRead at hk
    split at hk
    · cases hk
    · rename_i hget
      rw [hget]
      rfl
  constructor
  · intro hcached
    unfold blobFullyCached at hcached
    split at hcached
    · cases hcached
    rename_i stored hget
    obtain ⟨w, hw, hhash, rfl⟩ := hS h stored hget
    have hread : storeRead C (keyless E) S h =
        C.decode (keyless E) (C.encode (keyless E) (w.data E) h) h := by
      rw [storeRead, hget]
    obtain ⟨pieces, hpieces⟩ : ∃ pieces, forEachSerialisedChunk C (keyless E) S h = .ok pieces := by
      split_ifs at hcached with hpeek
      · obtain ⟨hok, hnone⟩ := peek_sound w hpeek
        apply forEachSerialisedChunk_of_there hS hno hw (hread.trans hok)
        intro chunkHashes hsome
        rw [hnone] at hsome
        cases hsome
      · -- the object was read, so it is what was written
        rcases Codec.decode_encode_cases C (keyless E) (w.data E) h with ⟨-, hok⟩ | ⟨-, e, herr⟩
        · apply forEachSerialisedChunk_of_there hS hno hw (hread.trans hok)
          intro chunkHashes hsome
          rw [hread, hok] at hcached
          simp only [hsome] at hcached
          exact List.all_eq_true.mp hcached
        · rw [hread, herr] at hcached
          cases hcached
    exact forEachBlobChunk_of_pieces hpieces
  · rintro ⟨raw, hraw, hchunks⟩
    obtain ⟨stored, hget⟩ := Option.isSome_iff_exists.mp (hisSome h raw hraw)
    unfold blobFullyCached
    rw [hget, hraw]
    simp only
    split_ifs with hpeek
    · rfl
    · cases hmanifest : Codec.deserialiseManifest raw with
      | none => rfl
      | some chunkHashes =>
          apply List.all_eq_true.mpr
          intro k hk
          obtain ⟨tagged, htagged⟩ := hchunks chunkHashes hmanifest k hk
          exact hisSome k tagged htagged

end Cached

/-! ## A blob in two objects -/

/-- A manifest and its one chunk. -/
def twoWrites : List Written :=
  [.manifest [7, 8] [[7, 8]], .chunk [7, 8] (by decide)]

def twoObjects : Objects :=
  (KeyMap.empty.insert 0xF0 (Codec.serialiseManifest [0xF3])).insert 0xF3 (serialiseChunk [7, 8])

theorem holds_twoWrites : HoldsWrites (runCodec []) tagEnv twoWrites twoObjects := by
  intro h v hv
  by_cases hchunk : h = 0xF3
  · subst hchunk
    refine ⟨.chunk [7, 8] (by decide), by simp [twoWrites], rfl, ?_⟩
    rw [twoObjects, KeyMap.get_insert_self] at hv
    obtain rfl := Option.some.inj hv
    rfl
  by_cases hblob : h = 0xF0
  · subst hblob
    refine ⟨.manifest [7, 8] [[7, 8]], by simp [twoWrites], rfl, ?_⟩
    rw [twoObjects, KeyMap.get_insert_ne _ _ hchunk, KeyMap.get_insert_self] at hv
    obtain rfl := Option.some.inj hv
    rfl
  · rw [twoObjects, KeyMap.get_insert_ne _ _ hchunk, KeyMap.get_insert_ne _ _ hblob] at hv
    cases hv

theorem blobFullyCached_twoObjects :
    blobFullyCached (runCodec []) tagEnv twoObjects 0xF0 = true ∧
      ∃ out, forEachBlobChunk (runCodec []) (keyless tagEnv) twoObjects 0xF0 = .ok out := by
  have hcached : blobFullyCached (runCodec []) tagEnv twoObjects 0xF0 = true := rfl
  have htells : TellsApart tagEnv twoWrites := by
    unfold TellsApart
    decide
  exact ⟨hcached, (blobFullyCached_spec holds_twoWrites htells 0xF0).1 hcached⟩

end Omemfs.Store
