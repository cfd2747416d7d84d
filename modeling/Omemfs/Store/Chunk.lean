/-
# Omemfs.Store.Chunk — blobs in an object store.

A blob is serialised, cut into segments, and stored either whole or as chunks under a manifest; every
object is compressed and encrypted on its way in.  Each stage marks its output in the two leading bytes
and escapes what looks like a mark.

A blob is read back as it was exactly where its manifest can be read and no cut parts the two bytes of
its escape (`roundTrips_iff`): the decoder refuses an output over its limit, and a manifest is as long
as its blob has segments.
-/
import Omemfs.Codec
import Omemfs.Lib.KeyMap

namespace Omemfs

open Lib

/-! ## What can be read back -/

namespace Codec

/-- The object fits the decoder's limit, or is stored as it is. -/
def Readable (C : Codec) (data : Bytes) : Prop :=
  data.length ≤ decompressMax ∨
    rawStoredLen data < 2 + (C.zstdEncode true data).length ∧
    rawStoredLen data < 2 + (C.zstdEncode false data).length

theorem decompressZstdBytes_marked (C : Codec) (dict : Bool) (data : Bytes) :
    decompressZstdBytes C dict (C.zstdEncode dict data) =
      if decompressMax < data.length then
        .error (.invalidObject s!"decompressed output exceeds the {decompressMax} byte limit")
      else .ok data := by
  unfold decompressZstdBytes
  rw [C.zstdDecode_encode]

/-- What was compressed is read back where it is readable, and refused elsewhere. -/
theorem decompress_compress_cases (C : Codec) (data : Bytes) :
    C.Readable data ∧ decompress C (compress C data) = .ok data ∨
    ¬ C.Readable data ∧ ∃ e, decompress C (compress C data) = .error e := by
  have hmarked : ∀ dict : Bool, decompressZstdBytes C dict (C.zstdEncode dict data) = .ok data ∧
      data.length ≤ decompressMax ∨ (∃ e, decompressZstdBytes C dict (C.zstdEncode dict data) = .error e) ∧
      decompressMax < data.length := by
    intro dict
    rw [decompressZstdBytes_marked]
    by_cases hlong : decompressMax < data.length
    · rw [if_pos hlong]
      exact .inr ⟨⟨_, rfl⟩, hlong⟩
    · rw [if_neg hlong]
      exact .inl ⟨rfl, by omega⟩
  unfold compress Readable
  simp only
  split_ifs with hdict hplain
  · have hraw : ¬ rawStoredLen data < 2 + (C.zstdEncode true data).length := by omega
    rcases hmarked true with ⟨hok, hle⟩ | ⟨herr, hlt⟩
    · exact .inl ⟨.inl hle, hok⟩
    · exact .inr ⟨by omega, herr⟩
  · have hraw : ¬ rawStoredLen data < 2 + (C.zstdEncode false data).length := by omega
    rcases hmarked false with ⟨hok, hle⟩ | ⟨herr, hlt⟩
    · exact .inl ⟨.inl hle, hok⟩
    · exact .inr ⟨by omega, herr⟩
  · exact .inl ⟨.inr (by omega), decompress_escapeRawOwned C data⟩

theorem decode_encode_cases (C : Codec) (E : Pack.Env) (data : Bytes) (h : Hash) :
    C.Readable data ∧ decode C E (encode C E data h) h = .ok data ∨
    ¬ C.Readable data ∧ ∃ e, decode C E (encode C E data h) h = .error e := by
  have hplain : decode C E (encode C E data h) h = decompress C (compress C data) := by
    unfold decode encode
    rw [Pack.decrypt_encrypt]
    rfl
  rw [hplain]
  exact decompress_compress_cases C data

theorem decode_of_readable {C : Codec} {data : Bytes} (hread : C.Readable data) (E : Pack.Env)
    (h : Hash) : decode C E (encode C E data h) h = .ok data := by
  rcases decode_encode_cases C E data h with ⟨-, hok⟩ | ⟨hno, -⟩
  · exact hok
  · exact absurd hread hno

end Codec

namespace Store

/-! ## The store -/

/-- Stored bytes by hash. -/
abbrev Objects := KeyMap Hash Bytes

/-- `store_write`: an object that is there is not encoded again. -/
def storeWrite (C : Codec) (E : Pack.Env) (S : Objects) (h : Hash) (data : Bytes) : Objects :=
  if (S.get h).isSome then S else S.insert h (C.encode E data h)

def storeRead (C : Codec) (E : Pack.Env) (S : Objects) (h : Hash) : Except Error Bytes :=
  match S.get h with
  | none => .error (.objectNotFound h.asStr)
  | some stored => C.decode E stored h

/-! ## Type tags -/

def typeTagBlob : Bytes := [0xED, 0xF0]
def typeTagChunk : Bytes := [0xED, 0xF3]

def blobNeedsEscape (first second : Option UInt8) : Bool :=
  first == some 0xED && second.any fun b => decide (0xF0 ≤ b)

def serialiseBlob (content : Bytes) : Bytes :=
  if blobNeedsEscape content[0]? content[1]? then typeTagBlob ++ content else content

def deserialiseBlob (stored : Bytes) : Bytes :=
  if typeTagBlob.isPrefixOf stored then stored.drop 2 else stored

def serialiseChunk (chunk : Bytes) : Bytes := typeTagChunk ++ chunk

def deserialiseChunk (stored : Bytes) : Option Bytes :=
  if typeTagChunk.isPrefixOf stored then some (stored.drop 2) else none

/-- `Tree::is_tree_bytes` -/
def isTreeBytes (data : Bytes) : Bool := Codec.typeTagTree.isPrefixOf data

def chunkHash (E : Pack.Env) (chunk : Bytes) : Hash := E.sha256 (typeTagChunk ++ chunk)

def blobHash (E : Pack.Env) (content : Bytes) : Hash := E.sha256 (typeTagBlob ++ content)

/-! ## Chunks -/

def cdcMax : Nat := 16 * 1024 * 1024

/-- The cuts of FastCDC. -/
structure FastCdc where
  cut : Bytes → List Bytes
  flatten_cut : ∀ b, (cut b).flatten = b
  ne_nil : ∀ b, ∀ c ∈ cut b, c ≠ []
  length_le : ∀ b, ∀ c ∈ cut b, c.length ≤ cdcMax

/-- The loop over the segments, with the hashes of those stored. -/
def storeChunks (C : Codec) (E : Pack.Env) : List Bytes → Objects × List Hash → Objects × List Hash
  | [], acc => acc
  | chunk :: chunks, (S, chunkHashes) =>
      let hash := chunkHash E chunk
      let S := if (S.get hash).isSome then S else storeWrite C E S hash (serialiseChunk chunk)
      storeChunks C E chunks (S, chunkHashes ++ [hash])

def storeChunked (C : Codec) (E : Pack.Env) (K : FastCdc) (S : Objects) (logicalHash : Hash)
    (serialised : Bytes) : Objects :=
  let chunks := K.cut serialised
  if chunks.length < 2 then storeWrite C E S logicalHash serialised
  else
    match storeChunks C E chunks (S, []) with
    | (S, chunkHashes) => storeWrite C E S logicalHash (Codec.serialiseManifest chunkHashes)

def readChunks (C : Codec) (E : Pack.Env) (S : Objects) : List Hash → Except Error (List Bytes)
  | [] => .ok []
  | h :: hs => do
      let tagged ← storeRead C E S h
      match deserialiseChunk tagged with
      | none => .error (.invalidObject ("expected ED F3 chunk tag for hash " ++ h.asStr))
      | some chunk => do
          let chunks ← readChunks C E S hs
          pure (chunk :: chunks)

/-- The pieces the sink is called with. -/
def forEachSerialisedChunk (C : Codec) (E : Pack.Env) (S : Objects) (logicalHash : Hash) :
    Except Error (List Bytes) := do
  let raw ← storeRead C E S logicalHash
  match Codec.deserialiseManifest raw with
  | none => pure [raw]
  | some chunkHashes => readChunks C E S chunkHashes

/-- Only the first piece can begin with the escape. -/
def forEachBlobChunk (C : Codec) (E : Pack.Env) (S : Objects) (logicalHash : Hash) :
    Except Error (List Bytes) := do
  match ← forEachSerialisedChunk C E S logicalHash with
  | [] => pure []
  | first :: rest => pure (deserialiseBlob first :: rest)

/-! ## What a tag can be taken for -/

theorem isPrefixOf_two (a b : UInt8) (l : Bytes) :
    [a, b].isPrefixOf l = true ↔ l[0]? = some a ∧ l[1]? = some b := by
  match l with
  | [] => simp
  | [x] => simp
  | x :: y :: rest =>
      simp only [List.isPrefixOf, Bool.and_eq_true, beq_iff_eq, Bool.and_true, List.getElem?_cons_zero,
        List.getElem?_cons_succ, Option.some.injEq]
      constructor
      · rintro ⟨rfl, rfl⟩
        exact ⟨rfl, rfl⟩
      · rintro ⟨rfl, rfl⟩
        exact ⟨rfl, rfl⟩

/-- A serialised blob begins with no type tag but its own. -/
theorem serialiseBlob_tag {content : Bytes} {m : UInt8} (hm : 0xF0 < m) :
    [0xED, m].isPrefixOf (serialiseBlob content) = false := by
  rw [Bool.eq_false_iff]
  intro htag
  obtain ⟨h0, h1⟩ := (isPrefixOf_two _ _ _).mp htag
  unfold serialiseBlob at h0 h1
  split_ifs at h0 h1 with hesc
  · obtain rfl : (0xF0 : UInt8) = m := Option.some.inj h1
    exact absurd hm (by decide)
  · apply hesc
    rw [h0, h1]
    exact decide_eq_true (UInt8.le_of_lt hm)

theorem isTreeBytes_serialiseBlob (content : Bytes) : isTreeBytes (serialiseBlob content) = false :=
  serialiseBlob_tag (by decide)

theorem deserialiseManifest_serialiseBlob (content : Bytes) :
    Codec.deserialiseManifest (serialiseBlob content) = none := by
  have htag : Codec.typeTagManifest.isPrefixOf (serialiseBlob content) = false :=
    serialiseBlob_tag (by decide)
  unfold Codec.deserialiseManifest
  rw [htag]
  rfl

theorem deserialiseBlob_of_escape (rest : Bytes) :
    deserialiseBlob (typeTagBlob ++ rest) = rest := by
  have htag : typeTagBlob.isPrefixOf (typeTagBlob ++ rest) = true :=
    (isPrefixOf_two _ _ _).mpr ⟨rfl, rfl⟩
  rw [deserialiseBlob, if_pos htag]
  rfl

/-- Content that needs no escape is not taken for an escaped one, nor is a piece off its front. -/
theorem deserialiseBlob_of_plain {content first : Bytes}
    (hesc : blobNeedsEscape content[0]? content[1]? = false) (hfirst : first <+: content) :
    deserialiseBlob first = first := by
  unfold deserialiseBlob
  rw [if_neg]
  intro htag
  obtain ⟨h0, h1⟩ := (isPrefixOf_two _ _ _).mp htag
  obtain ⟨rest, rfl⟩ := hfirst
  have hlen : 1 < first.length := by
    by_contra hshort
    rw [List.getElem?_eq_none (by omega)] at h1
    cases h1
  rw [List.getElem?_append_left (by omega), List.getElem?_append_left hlen, h0, h1] at hesc
  revert hesc
  decide

/-! ## What is in the store afterwards -/

section RoundTrip

variable {C : Codec} {E : Pack.Env}

theorem get_storeWrite (C : Codec) (E : Pack.Env) (S : Objects) (h : Hash) (data : Bytes) (k : Hash) :
    (storeWrite C E S h data).get k = (S.get k).or (if k = h then some (C.encode E data h) else none) := by
  unfold storeWrite
  split_ifs with hthere heq heq
  · subst heq
    obtain ⟨v, hv⟩ := Option.isSome_iff_exists.mp hthere
    rw [hv]
    rfl
  · rw [Option.or_none]
  · subst heq
    have hnone : S.get k = none := by simpa using hthere
    rw [KeyMap.get_insert_self, hnone]
    rfl
  · rw [KeyMap.get_insert_ne S _ heq, Option.or_none]

/-- The store holds nothing but chunks of the list. -/
def OnlyChunks (C : Codec) (E : Pack.Env) (all : List Bytes) (S : Objects) : Prop :=
  ∀ h v, S.get h = some v → ∃ c ∈ all, h = chunkHash E c ∧ v = C.encode E (serialiseChunk c) h

/-- The segments of the list have different hashes when they differ. -/
def Distinct (E : Pack.Env) (all : List Bytes) : Prop :=
  ∀ a ∈ all, ∀ b ∈ all, chunkHash E a = chunkHash E b → a = b

theorem storeChunks_spec {all chunks : List Bytes} (hno : Distinct E all) (hsub : chunks ⊆ all)
    {S : Objects} (hS : OnlyChunks C E all S) (hashes : List Hash) :
    ∃ S', storeChunks C E chunks (S, hashes) = (S', hashes ++ chunks.map (chunkHash E)) ∧
      OnlyChunks C E all S' ∧
      (∀ c ∈ chunks, S'.get (chunkHash E c) = some (C.encode E (serialiseChunk c) (chunkHash E c))) ∧
      ∀ h v, S.get h = some v → S'.get h = some v := by
  induction chunks generalizing S hashes with
  | nil => exact ⟨S, by rw [List.map_nil, List.append_nil]; rfl, hS, nofun, fun _ _ h => h⟩
  | cons c chunks ih =>
      have hc : c ∈ all := hsub (List.mem_cons_self ..)
      -- the second look before the write finds what the first did
      have hwrite : (if (S.get (chunkHash E c)).isSome then S
          else storeWrite C E S (chunkHash E c) (serialiseChunk c)) =
          storeWrite C E S (chunkHash E c) (serialiseChunk c) := by
        split_ifs with hthere
        · exact (if_pos hthere).symm
        · rfl
      have hget := get_storeWrite C E S (chunkHash E c) (serialiseChunk c)
      have hown : (storeWrite C E S (chunkHash E c) (serialiseChunk c)).get (chunkHash E c) =
          some (C.encode E (serialiseChunk c) (chunkHash E c)) := by
        rw [hget, if_pos rfl]
        cases hthere : S.get (chunkHash E c) with
        | none => rfl
        | some v =>
            obtain ⟨c', hc', hhash, rfl⟩ := hS _ _ hthere
            rw [hno c hc c' hc' hhash]
            rfl
      have honly : OnlyChunks C E all (storeWrite C E S (chunkHash E c) (serialiseChunk c)) := by
        intro h v hv
        rw [hget] at hv
        rcases Option.or_eq_some_iff.mp hv with hold | ⟨-, hnew⟩
        · exact hS h v hold
        · split_ifs at hnew with heq
          subst heq
          exact ⟨c, hc, rfl, (Option.some.inj hnew).symm⟩
      obtain ⟨S', hrun, honly', hall, hkeep⟩ :=
        ih (fun x hx => hsub (List.mem_cons_of_mem _ hx)) honly (hashes ++ [chunkHash E c])
      refine ⟨S', ?_, honly', ?_, ?_⟩
      · rw [storeChunks]
        simp only [hwrite]
        rw [hrun, List.append_assoc, List.map_cons]
        rfl
      · intro x hx
        rcases List.mem_cons.mp hx with rfl | hx
        · exact hkeep _ _ hown
        · exact hall x hx
      · intro h v hv
        apply hkeep
        rw [hget, hv]
        rfl

/-- A chunk is within the limit of the decoder. -/
theorem readable_chunk (C : Codec) {chunk : Bytes} (h : chunk.length ≤ cdcMax) :
    C.Readable (serialiseChunk chunk) := by
  left
  have hlen : (serialiseChunk chunk).length = 2 + chunk.length := by
    rw [serialiseChunk, List.length_append]
    rfl
  have hmax : cdcMax + 2 ≤ Codec.decompressMax := by decide
  omega

theorem readChunks_of_stored {S : Objects} {chunks : List Bytes}
    (hshort : ∀ c ∈ chunks, c.length ≤ cdcMax)
    (hall : ∀ c ∈ chunks, S.get (chunkHash E c) =
      some (C.encode E (serialiseChunk c) (chunkHash E c))) :
    readChunks C E S (chunks.map (chunkHash E)) = .ok chunks := by
  induction chunks with
  | nil => rfl
  | cons c chunks ih =>
      have hread : storeRead C E S (chunkHash E c) = .ok (serialiseChunk c) := by
        rw [storeRead, hall c (List.mem_cons_self ..)]
        exact Codec.decode_of_readable (readable_chunk C (hshort c (List.mem_cons_self ..))) E _
      have htag : deserialiseChunk (serialiseChunk c) = some c := by
        have hprefix : typeTagChunk.isPrefixOf (typeTagChunk ++ c) = true :=
          (isPrefixOf_two _ _ _).mpr ⟨rfl, rfl⟩
        rw [deserialiseChunk, serialiseChunk, if_pos hprefix]
        rfl
      rw [List.map_cons, readChunks, hread]
      simp only [bind, Except.bind, htag]
      rw [ih (fun x hx => hshort x (List.mem_cons_of_mem _ hx))
        (fun x hx => hall x (List.mem_cons_of_mem _ hx))]
      rfl

/-! ## The round trip -/

/-- What is hashed for a blob: itself, and its segments. -/
def hashedFor (K : FastCdc) (content : Bytes) : List Bytes :=
  (typeTagBlob ++ content) :: (K.cut (serialiseBlob content)).map serialiseChunk

/-- The hash function tells apart what is hashed for the blob. -/
def NoCollision (E : Pack.Env) (K : FastCdc) (content : Bytes) : Prop :=
  ∀ a ∈ hashedFor K content, ∀ b ∈ hashedFor K content, E.sha256 a = E.sha256 b → a = b

/-- The store after the blob was put into an empty one. -/
def storedBlob (C : Codec) (E : Pack.Env) (K : FastCdc) (content : Bytes) : Objects :=
  storeChunked C E K .empty (blobHash E content) (serialiseBlob content)

/-- The blob is read back as it was, and one stored whole is not taken for a tree or a manifest. -/
def RoundTrips (C : Codec) (E : Pack.Env) (K : FastCdc) (content : Bytes) : Prop :=
  (∃ pieces, forEachBlobChunk C E (storedBlob C E K content) (blobHash E content) = .ok pieces ∧
    pieces.flatten = content) ∧
  ((K.cut (serialiseBlob content)).length < 2 →
    ∃ raw, storeRead C E (storedBlob C E K content) (blobHash E content) = .ok raw ∧
      isTreeBytes raw = false ∧ Codec.deserialiseManifest raw = none)

/-- The manifest of a blob that is cut. -/
def manifestOf (E : Pack.Env) (K : FastCdc) (content : Bytes) : Bytes :=
  Codec.serialiseManifest ((K.cut (serialiseBlob content)).map (chunkHash E))

variable {K : FastCdc} {content : Bytes}

theorem NoCollision.distinct (h : NoCollision E K content) :
    Distinct E (K.cut (serialiseBlob content)) := by
  intro a ha b hb heq
  have hab := h _ (List.mem_cons_of_mem _ (List.mem_map_of_mem ha)) _
    (List.mem_cons_of_mem _ (List.mem_map_of_mem hb)) heq
  exact List.append_cancel_left hab

theorem NoCollision.blobHash_ne (h : NoCollision E K content) {c : Bytes}
    (hc : c ∈ K.cut (serialiseBlob content)) : blobHash E content ≠ chunkHash E c := by
  intro heq
  have htags := h _ (List.mem_cons_self ..) _ (List.mem_cons_of_mem _ (List.mem_map_of_mem hc)) heq
  have hsecond := congrArg (fun l => l[1]?) htags
  revert hsecond
  simp [typeTagBlob, serialiseChunk, typeTagChunk]

theorem readable_whole (C : Codec) (h : (K.cut (serialiseBlob content)).length < 2) :
    C.Readable (serialiseBlob content) := by
  left
  have hflat := K.flatten_cut (serialiseBlob content)
  have hmax : cdcMax ≤ Codec.decompressMax := by decide
  match hcut : K.cut (serialiseBlob content) with
  | [] =>
      rw [hcut] at hflat
      rw [← hflat]
      exact Nat.zero_le _
  | [c] =>
      have hle := K.length_le (serialiseBlob content) c (by rw [hcut]; exact List.mem_singleton_self c)
      rw [hcut, List.flatten_singleton] at hflat
      rw [← hflat]
      omega
  | _ :: _ :: _ =>
      rw [hcut] at h
      simp only [List.length_cons] at h
      omega

/-- A blob stored whole is read back as it was. -/
theorem roundTrips_whole (C : Codec) (E : Pack.Env) (h : (K.cut (serialiseBlob content)).length < 2) :
    RoundTrips C E K content := by
  have hread : storeRead C E (storedBlob C E K content) (blobHash E content) =
      .ok (serialiseBlob content) := by
    rw [storeRead, storedBlob, storeChunked, if_pos h, get_storeWrite, KeyMap.get_empty, if_pos rfl]
    exact Codec.decode_of_readable (readable_whole C h) E _
  refine ⟨⟨[deserialiseBlob (serialiseBlob content)], ?_, ?_⟩, fun _ =>
    ⟨_, hread, isTreeBytes_serialiseBlob content, deserialiseManifest_serialiseBlob content⟩⟩
  · rw [forEachBlobChunk, forEachSerialisedChunk, hread]
    simp only [bind, Except.bind, deserialiseManifest_serialiseBlob]
    rfl
  · rw [List.flatten_singleton]
    unfold serialiseBlob
    split_ifs with hesc
    · exact deserialiseBlob_of_escape content
    · exact deserialiseBlob_of_plain (Bool.eq_false_iff.mpr hesc) List.prefix_rfl

/-- **`roundTrips_iff`** — a blob is read back unless its manifest is refused or its escape is cut. -/
theorem roundTrips_iff (C : Codec) (h : NoCollision E K content) : RoundTrips C E K content ↔
    (2 ≤ (K.cut (serialiseBlob content)).length → C.Readable (manifestOf E K content) ∧
      (blobNeedsEscape content[0]? content[1]? = true →
        (K.cut (serialiseBlob content)).head?.map List.length ≠ some 1)) := by
  by_cases hwhole : (K.cut (serialiseBlob content)).length < 2
  · exact iff_of_true (roundTrips_whole C E hwhole) (fun hcut => by omega)
  have hempty : OnlyChunks C E (K.cut (serialiseBlob content)) .empty := fun _ _ hv => by cases hv
  obtain ⟨S', hrun, honly, hall, -⟩ :=
    storeChunks_spec h.distinct (List.Subset.refl _) hempty []
  have hstored : storedBlob C E K content =
      storeWrite C E S' (blobHash E content) (manifestOf E K content) := by
    rw [storedBlob, storeChunked, if_neg hwhole, hrun]
    rfl
  have hfree : S'.get (blobHash E content) = none := by
    rw [Option.eq_none_iff_forall_ne_some]
    intro v hv
    obtain ⟨c, hc, heq, -⟩ := honly _ _ hv
    exact h.blobHash_ne hc heq
  have hread : storeRead C E (storedBlob C E K content) (blobHash E content) =
      C.decode E (C.encode E (manifestOf E K content) (blobHash E content)) (blobHash E content) := by
    rw [hstored, storeRead, get_storeWrite, hfree, if_pos rfl]
    rfl
  have hkept : ∀ c ∈ K.cut (serialiseBlob content), (storedBlob C E K content).get (chunkHash E c) =
      some (C.encode E (serialiseChunk c) (chunkHash E c)) := by
    intro c hc
    rw [hstored, get_storeWrite, hall c hc]
    rfl
  have hcut : 2 ≤ (K.cut (serialiseBlob content)).length := by omega
  rcases Codec.decode_encode_cases C E (manifestOf E K content) (blobHash E content) with
    ⟨hreadable, hok⟩ | ⟨hunreadable, e, herr⟩
  · -- the manifest is read, and every segment behind it
    have hpieces : forEachSerialisedChunk C E (storedBlob C E K content) (blobHash E content) =
        .ok (K.cut (serialiseBlob content)) := by
      rw [forEachSerialisedChunk, hread, hok]
      simp only [bind, Except.bind]
      rw [manifestOf, Codec.deserialiseManifest_serialiseManifest]
      exact readChunks_of_stored (K.length_le _) hkept
    obtain ⟨first, rest, hfirst⟩ : ∃ first rest, K.cut (serialiseBlob content) = first :: rest :=
      List.exists_cons_of_length_pos (by omega)
    have hflat := K.flatten_cut (serialiseBlob content)
    have hblob : forEachBlobChunk C E (storedBlob C E K content) (blobHash E content) =
        .ok (deserialiseBlob first :: rest) := by
      rw [forEachBlobChunk, hpieces, hfirst]
      rfl
    have hprefix : first <+: serialiseBlob content := by
      rw [← hflat, hfirst, List.flatten_cons]
      exact List.prefix_append _ _
    have hparts : RoundTrips C E K content ↔ deserialiseBlob first ++ rest.flatten = content := by
      unfold RoundTrips
      rw [hblob]
      constructor
      · rintro ⟨⟨pieces, heq, hcontent⟩, -⟩
        cases heq
        exact hcontent
      · exact fun heq => ⟨⟨_, rfl, heq⟩, fun hlt => absurd hlt hwhole⟩
    rw [hfirst, List.flatten_cons] at hflat
    rw [hparts, hfirst]
    simp only [List.head?_cons, Option.map_some, ne_eq, Option.some.injEq]
    cases hesc : blobNeedsEscape content[0]? content[1]? with
    | false =>
        have hplain : serialiseBlob content = content := by
          rw [serialiseBlob, hesc]
          rfl
        rw [hplain] at hprefix hflat
        rw [deserialiseBlob_of_plain hesc hprefix, hflat]
        simp [hreadable]
    | true =>
        have hescaped : serialiseBlob content = typeTagBlob ++ content := by
          rw [serialiseBlob, hesc]
          rfl
        rw [hescaped] at hflat
        have hne : first ≠ [] := K.ne_nil (serialiseBlob content) first (by rw [hfirst]; exact List.mem_cons_self ..)
        match first, hne, hflat with
        | [x], _, hflat =>
            -- the escape is cut in two
            have hback : deserialiseBlob [x] = [x] := by
              rw [deserialiseBlob, if_neg]
              simp [typeTagBlob, List.isPrefixOf]
            rw [hback, hflat]
            refine iff_of_false (fun heq => ?_) (fun hcond => (hcond (hfirst ▸ hcut)).2 rfl rfl)
            have hlen := congrArg List.length heq
            rw [List.length_append, typeTagBlob, List.length_cons, List.length_singleton] at hlen
            omega
        | x :: y :: tail, _, hflat =>
            simp only [typeTagBlob, List.cons_append, List.nil_append, List.cons.injEq] at hflat
            obtain ⟨rfl, rfl, hflat⟩ := hflat
            have hback : deserialiseBlob (0xED :: 0xF0 :: tail) = tail := deserialiseBlob_of_escape tail
            rw [hback]
            exact iff_of_true hflat (fun _ => ⟨hreadable, fun _ => by simp⟩)
  · refine iff_of_false ?_ (fun hcond => hunreadable (hcond hcut).1)
    rintro ⟨⟨pieces, hpieces, -⟩, -⟩
    rw [forEachBlobChunk, forEachSerialisedChunk, hread, herr] at hpieces
    cases hpieces

end RoundTrip

/-! ## A blob with too many segments -/

/-- Segments of `n + 1` bytes, and a shorter last one. -/
def blocks (n : Nat) (b : Bytes) : List Bytes :=
  if b = [] then [] else b.take (n + 1) :: blocks n (b.drop (n + 1))
termination_by b.length
decreasing_by
  rw [List.length_drop]
  have := List.length_pos_iff.mpr (by assumption)
  omega

theorem blocks_spec (n : Nat) (b : Bytes) :
    (blocks n b).flatten = b ∧ (∀ c ∈ blocks n b, c ≠ []) ∧ ∀ c ∈ blocks n b, c.length ≤ n + 1 := by
  induction b using blocks.induct n with
  | case1 => exact ⟨by rw [blocks]; rfl, by rw [blocks]; nofun, by rw [blocks]; nofun⟩
  | case2 b hne ih =>
      obtain ⟨hflat, hnil, hlen⟩ := ih
      rw [blocks, if_neg hne]
      refine ⟨?_, ?_, ?_⟩
      · rw [List.flatten_cons, hflat, List.take_append_drop]
      · intro c hc
        rcases List.mem_cons.mp hc with rfl | hc
        · simp [hne]
        · exact hnil c hc
      · intro c hc
        rcases List.mem_cons.mp hc with rfl | hc
        · rw [List.length_take]
          exact Nat.min_le_left _ _
        · exact hlen c hc

theorem blocks_replicate (n k : Nat) (x : UInt8) :
    blocks n (List.replicate (k * (n + 1)) x) = List.replicate k (List.replicate (n + 1) x) := by
  induction k with
  | zero =>
      rw [Nat.zero_mul, blocks]
      rfl
  | succ k ih =>
      have hsplit : (k + 1) * (n + 1) = n + 1 + k * (n + 1) := by ring
      have hne : List.replicate ((k + 1) * (n + 1)) x ≠ [] := by
        rw [hsplit, Ne, List.replicate_eq_nil_iff]
        omega
      rw [blocks, if_neg hne, hsplit, List.replicate_add, List.take_left' List.length_replicate,
        List.drop_left' List.length_replicate, ih]
      rfl

/-- A content without cut points: every segment has the largest size. -/
def blockCdc : FastCdc where
  cut := blocks (cdcMax - 1)
  flatten_cut b := (blocks_spec _ b).1
  ne_nil b := (blocks_spec _ b).2.1
  length_le b := (blocks_spec _ b).2.2

/-- A compressor that makes one byte of the object `m`. -/
def runCodec (m : Bytes) : Codec where
  zstdEncode _ b := if b = m then [0] else 1 :: b
  zstdDecode _ z :=
    match z with
    | 0 :: _ => (m, none)
    | _ :: b => (b, none)
    | [] => ([], none)
  zstdDecode_encode _ b := by
    split_ifs with h
    · rw [h]
      rfl
    · rfl
  parseTree _ := none

/-- A hash that tells type tags apart. -/
def tagEnv : Pack.Env := { Pack.sampleEnv with sha256 := fun b => BitVec.ofNat 256 (b.getD 1 0).toNat }

theorem sha256_blob (content : Bytes) : tagEnv.sha256 (typeTagBlob ++ content) = 0xF0 := rfl

theorem sha256_chunk (chunk : Bytes) : tagEnv.sha256 (serialiseChunk chunk) = 0xF3 := rfl

theorem serialiseBlob_zeros (n : Nat) : serialiseBlob (List.replicate n 0) = List.replicate n 0 := by
  cases n <;> rfl

theorem not_roundTrips_zeros {k : Nat} (hk : 2 * 1024 * 1024 ≤ k) :
    ¬ RoundTrips (runCodec (Codec.serialiseManifest (List.replicate k 0xF3))) tagEnv blockCdc
      (List.replicate (k * cdcMax) 0) := by
  have hcut : blockCdc.cut (serialiseBlob (List.replicate (k * cdcMax) 0)) =
      List.replicate k (List.replicate cdcMax 0) := by
    rw [serialiseBlob_zeros]
    exact blocks_replicate (cdcMax - 1) k 0
  have hhash : chunkHash tagEnv (List.replicate cdcMax 0) = 0xF3 := sha256_chunk _
  have hno : NoCollision tagEnv blockCdc (List.replicate (k * cdcMax) 0) := by
    intro a ha b hb heq
    rw [hashedFor, hcut, List.map_replicate] at ha hb
    rcases List.mem_cons.mp ha with rfl | ha
    · rcases List.mem_cons.mp hb with rfl | hb
      · rfl
      · rw [List.eq_of_mem_replicate hb, sha256_blob, sha256_chunk] at heq
        exact absurd heq (by decide)
    · rw [List.eq_of_mem_replicate ha] at heq ⊢
      rcases List.mem_cons.mp hb with rfl | hb
      · rw [sha256_blob, sha256_chunk] at heq
        exact absurd heq (by decide)
      · rw [List.eq_of_mem_replicate hb]
  have hmanifest : manifestOf tagEnv blockCdc (List.replicate (k * cdcMax) 0) =
      Codec.serialiseManifest (List.replicate k 0xF3) := by
    rw [manifestOf, hcut, List.map_replicate, hhash]
  rw [roundTrips_iff _ hno, hcut, hmanifest, List.length_replicate]
  intro hcond
  have hread := (hcond (by omega)).1
  have hlen : (Codec.serialiseManifest (List.replicate k 0xF3)).length = 2 + k * 32 := by
    rw [Codec.serialiseManifest, List.length_append, Pack.IndexRoot.length_flatMap_toBytes,
      List.length_replicate]
    rfl
  have hraw : Codec.rawStoredLen (Codec.serialiseManifest (List.replicate k 0xF3)) = 2 + k * 32 := by
    rw [Codec.rawStoredLen, if_neg (by simp [Codec.serialiseManifest, Codec.typeTagManifest, Codec.needsEscape]), hlen]
  have hmax : Codec.decompressMax = 2 * 1024 * 1024 * 32 := by decide
  rcases hread with hshort | ⟨hdict, -⟩
  · omega
  · rw [hraw] at hdict
    simp only [runCodec, if_pos] at hdict
    rw [List.length_singleton] at hdict
    omega

/-- **`zeros_not_read_back`** — a blob of 32 TiB of zeros. -/
theorem zeros_not_read_back :
    ¬ RoundTrips (runCodec (Codec.serialiseManifest (List.replicate (2 * 1024 * 1024) 0xF3))) tagEnv
      blockCdc (List.replicate (2 * 1024 * 1024 * cdcMax) 0) :=
  not_roundTrips_zeros (Nat.le_refl _)

/-- A content that begins like a tree, stored whole. -/
theorem roundTrips_treeTag : RoundTrips (runCodec []) tagEnv blockCdc [0xED, 0xF1, 0x7B] := by
  have hcut : blockCdc.cut (serialiseBlob [0xED, 0xF1, 0x7B]) = [[0xED, 0xF0, 0xED, 0xF1, 0x7B]] := by
    show blocks (cdcMax - 1) [0xED, 0xF0, 0xED, 0xF1, 0x7B] = _
    rw [blocks, blocks]
    rfl
  have hno : NoCollision tagEnv blockCdc [0xED, 0xF1, 0x7B] := by
    unfold NoCollision hashedFor
    rw [hcut]
    decide
  apply (roundTrips_iff _ hno).mpr
  rw [hcut]
  exact fun h => absurd h (by decide)

end Store

end Omemfs
