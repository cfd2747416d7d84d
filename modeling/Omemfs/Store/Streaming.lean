/-
# Omemfs.Store.Streaming — a file that is stored while it is read.

A large file is not held in memory.  Its first two bytes are probed for the escape; then the escape and
the file go through the chunker as one stream, and the first segment is held until a second one shows
that there is a manifest to write.  A scan that only needs the hash reads the file once and stores
nothing.

However short the reads are, the hash and the objects are those of a blob stored from memory, unless the
file is empty (`streamAgrees_iff`): a stream without a segment ends in a manifest without a chunk.
-/
import Omemfs.Store.Chunk
import Omemfs.Lib.Reader

namespace Omemfs.Store

open Lib

/-! ## The readers -/

/-- An open file: its bytes, where the next read begins, and how many reads there were. -/
structure OpenFile where
  content : Bytes
  pos : Nat
  reads : Nat

def openFile (content : Bytes) : OpenFile := ⟨content, 0, 0⟩

def OpenFile.seek (file : OpenFile) (pos : Nat) : OpenFile := { file with pos := pos }

/-- The `i`-th read of a file yields no more than `short i` bytes, and one at least. -/
def fileReader (short : Nat → Nat) : Reader UInt8 OpenFile where
  read file n :=
    let got := (file.content.drop file.pos).take (min n (max 1 (short file.reads)))
    (got, { file with pos := file.pos + got.length, reads := file.reads + 1 })
  rest file := file.content.drop file.pos
  read_append file n := by
    simp only [← List.drop_drop]
    exact List.prefix_iff_eq_append.mp (List.take_prefix _ _)
  read_le file n := by
    rw [List.length_take]
    omega
  read_ne_nil file n hn hne := by
    have hpos := List.length_pos_iff.mpr hne
    apply List.ne_nil_of_length_pos
    rw [List.length_take]
    omega

/-- Some bytes in front of another reader. -/
structure PrefixReader (σ : Type) where
  pre : Bytes
  prefixPos : Nat
  inner : σ

def prefixReader {σ : Type} (R : Reader UInt8 σ) : Reader UInt8 (PrefixReader σ) where
  read p n :=
    if p.prefixPos < p.pre.length then
      let take := min (p.pre.length - p.prefixPos) n
      ((p.pre.drop p.prefixPos).take take, { p with prefixPos := p.prefixPos + take })
    else ((R.read p.inner n).1, { p with inner := (R.read p.inner n).2 })
  rest p := p.pre.drop p.prefixPos ++ R.rest p.inner
  read_append p n := by
    split_ifs with h
    · simp only
      rw [← List.append_assoc, ← List.drop_drop, List.take_append_drop]
    · have hdone : p.pre.drop p.prefixPos = [] := List.drop_of_length_le (by omega)
      simp only [hdone, List.nil_append]
      exact R.read_append p.inner n
  read_le p n := by
    split_ifs with h
    · simp only [List.length_take]
      omega
    · exact R.read_le p.inner n
  read_ne_nil p n hn hne := by
    split_ifs with h
    · apply List.ne_nil_of_length_pos
      simp only [List.length_take, List.length_drop]
      omega
    · apply R.read_ne_nil p.inner n hn
      rwa [List.drop_of_length_le (by omega), List.nil_append] at hne

/-! ## The hash alone -/

def streamReadBuf : Nat := 1024 * 1024

/-- What was given to the hasher, and the two bytes that decide about the escape. -/
structure Pass1 where
  hashed : Bytes
  firstByte : Option UInt8
  secondByte : Option UInt8

def pass1Step (st : Pass1) (buf : Bytes) : Pass1 :=
  if st.firstByte.isNone then
    -- a buffer of one byte leaves the second one open
    { hashed := st.hashed ++ buf, firstByte := buf[0]?, secondByte := buf[1]? }
  else if st.secondByte.isNone then
    { st with hashed := st.hashed ++ buf, secondByte := buf[0]? }
  else { st with hashed := st.hashed ++ buf }

def pass1HashAndPrefix (E : Pack.Env) (short : Nat → Nat) (file : OpenFile) : Hash × Bool :=
  let st := ((fileReader short).pieces (fun _ => streamReadBuf) file).foldl pass1Step
    ⟨typeTagBlob, none, none⟩
  (E.sha256 st.hashed, blobNeedsEscape st.firstByte st.secondByte)

/-! ## Hash and objects in one pass -/

inductive Pass2Result where
  /-- Exactly one segment, not stored yet. -/
  | single (serialised : Bytes)
  /-- Two or more segments, all of them stored. -/
  | multi (chunkHashes : List Hash)

/-- The state of the loop over the segments. -/
structure Capture where
  store : Objects
  hashed : Bytes
  rawSize : Nat
  chunkHashes : List Hash
  firstChunk : Option Bytes
  first : Bool

def Capture.storeChunk (C : Codec) (E : Pack.Env) (st : Capture) (data : Bytes) : Capture :=
  let hash := chunkHash E data
  { st with
    store := if (st.store.get hash).isSome then st.store
      else storeWrite C E st.store hash (serialiseChunk data)
    chunkHashes := st.chunkHashes ++ [hash] }

/-- What of a segment is content: all of it, but for the escape. -/
def segmentRaw (first needsEscape : Bool) (data : Bytes) : Except Error Bytes :=
  if first && needsEscape then
    if data.length < 2 then .error (.invalidObject "streamed blob escape prefix was truncated")
    else .ok (data.drop 2)
  else .ok data

def captureChunk (C : Codec) (E : Pack.Env) (needsEscape : Bool) (st : Capture) (data : Bytes) :
    Except Error Capture := do
  let raw ← segmentRaw st.first needsEscape data
  let held := st.firstChunk
  let st := { st with
    first := false, hashed := st.hashed ++ raw, rawSize := st.rawSize + raw.length, firstChunk := none }
  if held.isNone && st.chunkHashes.isEmpty then pure { st with firstChunk := some data }
  else
    let st := match held with
      | some first => st.storeChunk C E first
      | none => st
    pure (st.storeChunk C E data)

/-- The hash, what is left to be stored, and the size of the content; `request i` is what the chunker
asks for in its `i`-th read. -/
def streamFileOnce (C : Codec) (E : Pack.Env) (K : FastCdc) (short request : Nat → Nat) (S : Objects)
    (file : OpenFile) : Except Error (Objects × Hash × Pass2Result × Nat) := do
  let (probe, file) := (fileReader short).fill 2 [] file
  let needsEscape := blobNeedsEscape probe[0]? probe[1]?
  let file := file.seek 0
  let pre := if needsEscape then typeTagBlob else []
  let chunker := K.cut ((prefixReader (fileReader short)).pieces request ⟨pre, 0, file⟩).flatten
  let st ← chunker.foldlM (captureChunk C E needsEscape) ⟨S, typeTagBlob, 0, [], none, true⟩
  let chunks := match st.firstChunk with
    | some data => Pass2Result.single data
    | none => .multi st.chunkHashes
  pure (st.store, E.sha256 st.hashed, chunks, st.rawSize)

def finishStreamedFile (C : Codec) (E : Pack.Env) (S : Objects) (logicalHash : Hash) :
    Pass2Result → Objects
  | .single serialised => storeWrite C E S logicalHash serialised
  | .multi chunkHashes => storeWrite C E S logicalHash (Codec.serialiseManifest chunkHashes)

/-! ## What was read -/

section Reads

variable {E : Pack.Env} {content : Bytes}

/-- What the hash pass knows after the bytes `seen`. -/
def Pass1.after (seen : Bytes) : Pass1 := ⟨typeTagBlob ++ seen, seen[0]?, seen[1]?⟩

theorem pass1Step_after (seen : Bytes) {buf : Bytes} (hne : buf ≠ []) :
    pass1Step (.after seen) buf = .after (seen ++ buf) := by
  obtain ⟨b, bs, rfl⟩ := List.exists_cons_of_ne_nil hne
  match seen with
  | [] => simp [pass1Step, Pass1.after]
  | [x] => simp [pass1Step, Pass1.after]
  | x :: y :: rest => simp [pass1Step, Pass1.after]

theorem foldl_pass1Step (pieces : List Bytes) (hne : ∀ p ∈ pieces, p ≠ []) (seen : Bytes) :
    pieces.foldl pass1Step (.after seen) = .after (seen ++ pieces.flatten) := by
  induction pieces generalizing seen with
  | nil => rw [List.foldl_nil, List.flatten_nil, List.append_nil]
  | cons p pieces ih =>
      rw [List.foldl_cons, pass1Step_after seen (hne p (List.mem_cons_self ..)),
        ih (fun q hq => hne q (List.mem_cons_of_mem _ hq)), List.flatten_cons, List.append_assoc]

/-- **`pass1HashAndPrefix_spec`** — the hash pass sees the content, however short its reads are. -/
theorem pass1HashAndPrefix_spec (E : Pack.Env) (short : Nat → Nat) (content : Bytes) :
    pass1HashAndPrefix E short (openFile content) =
      (blobHash E content, blobNeedsEscape content[0]? content[1]?) := by
  have hflat := @Reader.flatten_pieces _ _ (fileReader short) (fun _ => streamReadBuf)
    (fun _ => by decide) (openFile content)
  have hrun := foldl_pass1Step _ ((fileReader short).pieces_ne_nil (fun _ => streamReadBuf)
    (openFile content)) []
  rw [hflat] at hrun
  have hst : ((fileReader short).pieces (fun _ => streamReadBuf) (openFile content)).foldl pass1Step
      ⟨typeTagBlob, none, none⟩ = .after content := hrun
  rw [pass1HashAndPrefix, hst]
  rfl

/-- The probe is the front of the file, and the stream behind it is the whole file. -/
theorem probe_spec (short : Nat → Nat) (content : Bytes) :
    ((fileReader short).fill 2 [] (openFile content)).1 = content.take 2 ∧
      ((fileReader short).fill 2 [] (openFile content)).2.content = content := by
  constructor
  · exact (fileReader short).fill_fst 2 [] (openFile content) (Nat.zero_le _)
  · exact @Reader.fill_keeps _ _ (fileReader short) (fun file => file.content = content)
      (fun _ _ h => h) 2 [] (openFile content) rfl

/-- What reaches the chunker is the serialised blob. -/
theorem streamed_eq (short : Nat → Nat) {request : Nat → Nat} (hreq : ∀ i, 0 < request i)
    {file : OpenFile} (hfile : file.content = content) :
    ((prefixReader (fileReader short)).pieces request
        ⟨if blobNeedsEscape content[0]? content[1]? then typeTagBlob else [], 0, file.seek 0⟩).flatten =
      serialiseBlob content := by
  rw [Reader.flatten_pieces _ hreq, serialiseBlob]
  show _ ++ file.content = _
  rw [hfile]
  split_ifs <;> rfl

end Reads

/-! ## The loop over the segments -/

section Segments

variable {C : Codec} {E : Pack.Env} {S : Objects}

theorem storeChunk_eq (st : Capture) (data : Bytes) {acc : Objects × List Hash}
    (hacc : (st.store, st.chunkHashes) = acc) :
    ((st.storeChunk C E data).store, (st.storeChunk C E data).chunkHashes) =
      storeChunks C E [data] acc := by
  subst hacc
  rfl

theorem storeChunks_append (xs ys : List Bytes) (acc : Objects × List Hash) :
    storeChunks C E (xs ++ ys) acc = storeChunks C E ys (storeChunks C E xs acc) := by
  induction xs generalizing acc with
  | nil => rfl
  | cons x xs ih => exact ih _

theorem storeChunks_snd (segments : List Bytes) (acc : Objects × List Hash) :
    (storeChunks C E segments acc).2 = acc.2 ++ segments.map (chunkHash E) := by
  induction segments generalizing acc with
  | nil => rw [storeChunks, List.map_nil, List.append_nil]
  | cons c segments ih =>
      rw [storeChunks, ih, List.map_cons, List.append_assoc]
      rfl

/-- What the loop has done after the segments `done`: a single one is held, and more are stored. -/
structure Captured (C : Codec) (E : Pack.Env) (S : Objects) (needsEscape : Bool) (done : List Bytes)
    (st : Capture) : Prop where
  held : st.firstChunk = if done.length = 1 then done.head? else none
  stored : (st.store, st.chunkHashes) = if done.length < 2 then (S, []) else storeChunks C E done (S, [])
  started : st.first = done.isEmpty
  escape : needsEscape = true → done ≠ [] → 2 ≤ done.flatten.length
  hashed : st.hashed = typeTagBlob ++ done.flatten.drop (if needsEscape then 2 else 0)
  rawSize : st.rawSize = (done.flatten.drop (if needsEscape then 2 else 0)).length

/-- **`captureChunk_spec`** — one segment more. -/
theorem captureChunk_spec {needsEscape : Bool} {done : List Bytes} {st : Capture}
    (h : Captured C E S needsEscape done st) {data : Bytes}
    (hfirst : needsEscape = true → done = [] → 2 ≤ data.length) :
    ∃ st', captureChunk C E needsEscape st data = .ok st' ∧
      Captured C E S needsEscape (done ++ [data]) st' := by
  obtain ⟨raw, hraw, hdrop⟩ : ∃ raw, segmentRaw st.first needsEscape data = .ok raw ∧
      (done ++ [data]).flatten.drop (if needsEscape then 2 else 0) =
        done.flatten.drop (if needsEscape then 2 else 0) ++ raw := by
    rw [List.flatten_append, List.flatten_singleton, h.started]
    cases hdone : done with
    | nil =>
        cases hesc : needsEscape with
        | false => exact ⟨data, rfl, rfl⟩
        | true =>
            have hlong := hfirst hesc hdone
            refine ⟨data.drop 2, ?_, rfl⟩
            show (if data.length < 2 then _ else _) = _
            rw [if_neg (by omega)]
    | cons d rest =>
        refine ⟨data, rfl, List.drop_append_of_le_length ?_⟩
        split_ifs with hesc
        · rw [← hdone]
          exact h.escape hesc (by simp [hdone])
        · exact Nat.zero_le _
  have hescape : needsEscape = true → done ++ [data] ≠ [] → 2 ≤ (done ++ [data]).flatten.length := by
    intro hesc _
    rw [List.flatten_append, List.flatten_singleton, List.length_append]
    by_cases hdone : done = []
    · have hlong := hfirst hesc hdone
      omega
    · have hlong := h.escape hesc hdone
      omega
  have hheld := h.held
  have hstored := h.stored
  unfold captureChunk
  rw [hraw]
  simp only [bind, Except.bind]
  match done with
  | [] =>
      obtain ⟨hstore, hhashes⟩ := Prod.mk.inj hstored
      rw [hheld, hhashes]
      refine ⟨_, rfl, rfl, ?_, rfl, hescape, ?_, ?_⟩
      · show (st.store, []) = (S, [])
        rw [hstore]
      · rw [hdrop, ← List.append_assoc, ← h.hashed]
      · rw [hdrop, List.length_append, ← h.rawSize]
  | [d] =>
      rw [hheld]
      refine ⟨_, rfl, rfl, ?_, rfl, hescape, ?_, ?_⟩
      · exact storeChunk_eq _ data (storeChunk_eq _ d hstored)
      · rw [hdrop, ← List.append_assoc, ← h.hashed]
        rfl
      · rw [hdrop, List.length_append, ← h.rawSize]
        rfl
  | d :: d' :: rest =>
      have hlen : ¬ (d :: d' :: rest).length < 2 := by simp
      rw [if_neg hlen] at hstored
      have hmany : st.chunkHashes.isEmpty = false := by
        have hhashes : st.chunkHashes = [] ++ (d :: d' :: rest).map (chunkHash E) :=
          (congrArg Prod.snd hstored).trans (storeChunks_snd _ _)
        rw [hhashes]
        rfl
      rw [hheld, hmany]
      refine ⟨_, rfl, ?_, ?_, rfl, hescape, ?_, ?_⟩
      · rw [if_neg (by simp)]
        rfl
      · rw [if_neg (by simp), storeChunks_append]
        exact storeChunk_eq _ data hstored
      · rw [hdrop, ← List.append_assoc, ← h.hashed]
        rfl
      · rw [hdrop, List.length_append, ← h.rawSize]
        rfl

theorem captureChunks_spec {needsEscape : Bool} {done : List Bytes} {st : Capture}
    (h : Captured C E S needsEscape done st) (segments : List Bytes)
    (hfirst : needsEscape = true → done = [] → ∀ c ∈ segments.head?, 2 ≤ c.length) :
    ∃ st', segments.foldlM (captureChunk C E needsEscape) st = .ok st' ∧
      Captured C E S needsEscape (done ++ segments) st' := by
  induction segments generalizing done st with
  | nil => exact ⟨st, rfl, by rwa [List.append_nil]⟩
  | cons c segments ih =>
      obtain ⟨st₁, hstep, hst₁⟩ := captureChunk_spec h fun hesc hdone => hfirst hesc hdone c rfl
      obtain ⟨st₂, hrun, hst₂⟩ := ih hst₁ fun _ hdone => absurd hdone (by simp)
      refine ⟨st₂, ?_, by rwa [List.append_assoc] at hst₂⟩
      rw [List.foldlM_cons, hstep]
      exact hrun

/-- Before the first segment. -/
theorem captured_nil (C : Codec) (E : Pack.Env) (S : Objects) (needsEscape : Bool) :
    Captured C E S needsEscape [] ⟨S, typeTagBlob, 0, [], none, true⟩ where
  held := rfl
  stored := rfl
  started := rfl
  escape _ hne := absurd rfl hne
  hashed := by rw [List.flatten_nil, List.drop_nil, List.append_nil]
  rawSize := by rw [List.flatten_nil, List.drop_nil, List.length_nil]

end Segments

/-! ## Both ways of storing -/

def cdcMin : Nat := 1024 * 1024

/-- No segment but the last is shorter than the chunker's least size. -/
def KeepsMin (K : FastCdc) : Prop := ∀ b, ∀ c ∈ (K.cut b).dropLast, cdcMin ≤ c.length

section Agree

variable {C : Codec} {E : Pack.Env} {K : FastCdc} {content : Bytes}

/-- The first segment holds the whole escape. -/
theorem KeepsMin.escape_whole (hmin : KeepsMin K)
    (hesc : blobNeedsEscape content[0]? content[1]? = true) :
    ∀ c ∈ (K.cut (serialiseBlob content)).head?, 2 ≤ c.length := by
  intro c hc
  have hflat := K.flatten_cut (serialiseBlob content)
  match hcut : K.cut (serialiseBlob content) with
  | [] =>
      rw [hcut] at hc
      cases hc
  | [d] =>
      rw [hcut] at hc hflat
      obtain rfl := Option.some.inj hc
      rw [List.flatten_singleton, serialiseBlob, if_pos hesc] at hflat
      rw [hflat, List.length_append]
      exact Nat.le_add_right 2 _
  | d :: d' :: rest =>
      rw [hcut] at hc
      obtain rfl := Option.some.inj hc
      have hlong := hmin (serialiseBlob content) d (by rw [hcut]; exact List.mem_cons_self ..)
      have hcdc : 2 ≤ cdcMin := by decide
      omega

/-- What the loop ends with, for the segments of the serialised blob. -/
def pass2Of (E : Pack.Env) (segments : List Bytes) : Pass2Result :=
  match segments with
  | [data] => .single data
  | segments => .multi (segments.map (chunkHash E))

/-- **`streamFileOnce_spec`** — one pass gives the blob's hash and size, whatever the reads yield; the
segments are stored once there are two. -/
theorem streamFileOnce_spec (C : Codec) (E : Pack.Env) (hmin : KeepsMin K) (short : Nat → Nat)
    {request : Nat → Nat} (hreq : ∀ i, 0 < request i) (S : Objects) (content : Bytes) :
    streamFileOnce C E K short request S (openFile content) =
      .ok (if (K.cut (serialiseBlob content)).length < 2 then S
            else (storeChunks C E (K.cut (serialiseBlob content)) (S, [])).1,
        blobHash E content, pass2Of E (K.cut (serialiseBlob content)), content.length) := by
  obtain ⟨hprobe, hfile⟩ := probe_spec short content
  obtain ⟨st, hrun, hst⟩ := captureChunks_spec (captured_nil C E S _) (K.cut (serialiseBlob content))
    fun hesc _ => KeepsMin.escape_whole hmin hesc
  rw [List.nil_append] at hst
  have hdrop : (serialiseBlob content).drop
      (if blobNeedsEscape content[0]? content[1]? then 2 else 0) = content := by
    unfold serialiseBlob
    split_ifs <;> rfl
  have hhashed := hst.hashed
  have hsize := hst.rawSize
  rw [K.flatten_cut, hdrop] at hhashed hsize
  have h0 : (content.take 2)[0]? = content[0]? := List.getElem?_take_of_lt (by decide)
  have h1 : (content.take 2)[1]? = content[1]? := List.getElem?_take_of_lt (by decide)
  unfold streamFileOnce
  simp only [hprobe, h0, h1, streamed_eq short hreq hfile, hrun, bind, Except.bind, pure, Except.pure]
  rw [hhashed, hsize]
  have hstored := hst.stored
  have hheld := hst.held
  match hcut : K.cut (serialiseBlob content) with
  | [] =>
      rw [hcut] at hstored hheld
      obtain ⟨hstore, hhashes⟩ := Prod.mk.inj hstored
      rw [hheld, hstore, hhashes]
      rfl
  | [d] =>
      rw [hcut] at hstored hheld
      rw [hheld, (Prod.mk.inj hstored).1]
      rfl
  | d :: d' :: rest =>
      have hlen : ¬ (d :: d' :: rest).length < 2 := by simp
      rw [hcut] at hstored hheld
      rw [if_neg hlen] at hstored ⊢
      have hhashes : st.chunkHashes = [] ++ (d :: d' :: rest).map (chunkHash E) :=
        (congrArg Prod.snd hstored).trans (storeChunks_snd _ _)
      rw [hheld, hhashes, ← hstored]
      rfl

/-- The store after a stream into an empty one, with the hash it gave; the file is opened once more for
the hash alone. -/
def StreamAgrees (C : Codec) (E : Pack.Env) (K : FastCdc) (short request short' : Nat → Nat)
    (content : Bytes) : Prop :=
  ∃ S h chunks rawSize,
    streamFileOnce C E K short request .empty (openFile content) = .ok (S, h, chunks, rawSize) ∧
    h = blobHash E content ∧
    (∀ k, (finishStreamedFile C E S h chunks).get k = (storedBlob C E K content).get k) ∧
    (pass1HashAndPrefix E short' (openFile content)).1 = blobHash E content

/-- An empty blob is not stored as a manifest without chunks. -/
theorem encode_empty_ne (C : Codec) (E : Pack.Env) (h : Hash) :
    C.encode E (Codec.serialiseManifest []) h ≠ C.encode E [] h := by
  intro heq
  have hmanifest : C.decode E (C.encode E (Codec.serialiseManifest []) h) h =
      .ok (Codec.serialiseManifest []) := Codec.decode_of_readable (.inl (by decide)) E h
  have hempty : C.decode E (C.encode E [] h) h = .ok [] :=
    Codec.decode_of_readable (.inl (Nat.zero_le _)) E h
  rw [heq, hempty] at hmanifest
  cases hmanifest

/-- Only the empty content has no segment. -/
theorem cut_eq_nil_iff (K : FastCdc) (content : Bytes) :
    K.cut (serialiseBlob content) = [] ↔ content = [] := by
  have hflat := K.flatten_cut (serialiseBlob content)
  constructor
  · intro hcut
    rw [hcut, List.flatten_nil, serialiseBlob] at hflat
    split_ifs at hflat
    · cases hflat
    · exact hflat.symm
  · rintro rfl
    apply List.eq_nil_iff_forall_not_mem.mpr
    intro c hc
    exact K.ne_nil _ c hc (List.flatten_eq_nil_iff.mp hflat c hc)

/-- The hashes always agree; what can differ is the store. -/
theorem streamAgrees_iff_get (C : Codec) (E : Pack.Env) (hmin : KeepsMin K) (short short' : Nat → Nat)
    {request : Nat → Nat} (hreq : ∀ i, 0 < request i) (content : Bytes) :
    StreamAgrees C E K short request short' content ↔
      ∀ k, (finishStreamedFile C E
        (if (K.cut (serialiseBlob content)).length < 2 then .empty
          else (storeChunks C E (K.cut (serialiseBlob content)) (.empty, [])).1)
        (blobHash E content) (pass2Of E (K.cut (serialiseBlob content)))).get k =
          (storedBlob C E K content).get k := by
  have hhash := congrArg Prod.fst (pass1HashAndPrefix_spec E short' content)
  unfold StreamAgrees
  rw [streamFileOnce_spec C E hmin short hreq]
  constructor
  · rintro ⟨S, h, chunks, rawSize, heq, -, hget, -⟩
    cases heq
    exact hget
  · exact fun hget => ⟨_, _, _, _, rfl, rfl, hget, hhash⟩

/-- Nothing is cut from an empty file, so a manifest of nothing is written. -/
theorem not_streamAgrees_nil (C : Codec) (E : Pack.Env) (hmin : KeepsMin K) (short short' : Nat → Nat)
    {request : Nat → Nat} (hreq : ∀ i, 0 < request i) :
    ¬ StreamAgrees C E K short request short' [] := by
  rw [streamAgrees_iff_get C E hmin short short' hreq]
  intro hget
  have hat := hget (blobHash E [])
  rw [storedBlob, storeChunked, (cut_eq_nil_iff K []).mpr rfl] at hat
  simp only [List.length_nil, Nat.zero_lt_succ, if_true, pass2Of, finishStreamedFile, List.map_nil,
    get_storeWrite, KeyMap.get_empty, Option.none_or, Option.some.injEq] at hat
  exact encode_empty_ne C E _ hat

/-- **`streamAgrees_iff`** — a stream stores what the path through memory stores, unless it is empty. -/
theorem streamAgrees_iff (C : Codec) (E : Pack.Env) (hmin : KeepsMin K) (short short' : Nat → Nat)
    {request : Nat → Nat} (hreq : ∀ i, 0 < request i) (content : Bytes) :
    StreamAgrees C E K short request short' content ↔ content ≠ [] := by
  by_cases hempty : content = []
  · subst hempty
    exact iff_of_false (not_streamAgrees_nil C E hmin short short' hreq) (fun hne => hne rfl)
  refine iff_of_true ?_ hempty
  rw [streamAgrees_iff_get C E hmin short short' hreq]
  intro k
  rw [storedBlob, storeChunked]
  rcases hcut : K.cut (serialiseBlob content) with - | ⟨d, - | ⟨d', rest⟩⟩
  · exact absurd ((cut_eq_nil_iff K content).mp hcut) hempty
  · have hflat := K.flatten_cut (serialiseBlob content)
    rw [hcut, List.flatten_singleton] at hflat
    rw [hflat]
    rfl
  · have hlen : ¬ (d :: d' :: rest).length < 2 := by simp
    rw [if_neg hlen, if_neg hlen]
    have hrun : storeChunks C E (d :: d' :: rest) (.empty, []) =
        ((storeChunks C E (d :: d' :: rest) (.empty, [])).1, (d :: d' :: rest).map (chunkHash E)) :=
      Prod.ext rfl (storeChunks_snd _ _)
    rw [hrun]
    rfl

end Agree

/-! ## Two files -/

theorem keepsMin_blockCdc : KeepsMin blockCdc := by
  intro b
  show ∀ c ∈ (blocks (cdcMax - 1) b).dropLast, _
  induction b using blocks.induct (cdcMax - 1) with
  | case1 =>
      rw [blocks]
      rintro _ ⟨⟩
  | case2 b hne ih =>
      rw [blocks, if_neg hne]
      intro c hc
      by_cases hlast : blocks (cdcMax - 1) (b.drop (cdcMax - 1 + 1)) = []
      · rw [hlast] at hc
        cases hc
      · rw [List.dropLast_cons_of_ne_nil hlast] at hc
        rcases List.mem_cons.mp hc with rfl | hc
        · -- more follows, so this is a full block
          rw [List.length_take]
          have hfull : cdcMax - 1 + 1 ≤ b.length := by
            by_contra hshort
            apply hlast
            rw [List.drop_of_length_le (by omega), blocks, if_pos rfl]
          have hcdc : cdcMin ≤ cdcMax - 1 + 1 := by decide
          omega
        · exact ih c hc

/-- An escaped file, read byte by byte. -/
theorem streamAgrees_escaped :
    StreamAgrees (runCodec []) tagEnv blockCdc (fun _ => 1) (fun _ => 1) (fun _ => 1) [0xED, 0xF0] :=
  (streamAgrees_iff (runCodec []) tagEnv keepsMin_blockCdc (fun _ => 1) (fun _ => 1)
    (fun _ => Nat.one_pos) [0xED, 0xF0]).mpr (List.cons_ne_nil _ _)

/-- **`empty_streamed_apart`** — an empty file. -/
theorem empty_streamed_apart :
    ¬ StreamAgrees (runCodec []) tagEnv blockCdc (fun _ => 1) (fun _ => 1) (fun _ => 1) [] :=
  not_streamAgrees_nil (runCodec []) tagEnv keepsMin_blockCdc (fun _ => 1) (fun _ => 1)
    fun _ => Nat.one_pos

end Omemfs.Store
