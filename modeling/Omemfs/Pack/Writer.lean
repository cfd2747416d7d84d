/-
# Omemfs.Pack.Writer — `PackWriter`: the push side of the pack layer.

A writer is opened on one observation of the root (`new`), routes every object it is given to the
delta index, the pack buffer or the remote (`route`), and publishes a new INDEX_ROOT conditioned on
the observed token (`finish`).  A failed `finish` leaves the objects it has written on the remote,
so its result is a pair: the outcome, and the remote as the call leaves it.

`finish_cases` says everything a `finish` can do to the root: nothing, or replace exactly the root
the writer was opened on by one whose tiers extend it.
-/
import Omemfs.Pack.Reader

namespace Omemfs.Pack

open Lib

def inlineThreshold : Nat := 256
def packThreshold : Nat := 1024 * 1024
def packTarget : Nat := 4 * 1024 * 1024
def packMax : Nat := 16 * 1024 * 1024
def packMagic : Bytes := [0xED, 0xE1]
def standaloneEscapeMagic : Bytes := [0xED, 0xE0]

/-- A pending slice of the pack buffer: hash, offset, length. -/
abbrev Pending := Hash × UInt32 × UInt32

structure PackWriter where
  objcache : Cache
  delta : IndexFile
  packBuf : Bytes
  pending : List Pending
  bloom : BloomFilter
  startSnapshot : Option Bytes
  startToken : RootToken
  snapshotRoot : Option IndexRoot

namespace PackWriter

/-! ## Opening -/

/-- The filter a push starts from.  A fresh empty filter stands in for one that was never recorded,
whose object is missing, or that is structurally unusable; any other failure is propagated. -/
def loadRemoteBloom (E : Env) (r : Remote) (snapshotRoot : Option IndexRoot) :
    Except Error BloomFilter :=
  match snapshotRoot with
  | none => .ok (sizedFor E.optimalNumBits 0)
  | some ir =>
      match ir.bloomHashOpt with
      | none => .ok (sizedFor E.optimalNumBits 0)
      | some bh =>
          match r.openRead bh with
          | .error (.objectNotFound _) => .ok (sizedFor E.optimalNumBits 0)
          | .error e => .error e
          | .ok stored => do
              let plain ← decrypt E stored bh.toBytes
              let loaded ← BloomFilter.deserialise plain
              match loaded.structuralDefect with
              | some _ => pure (sizedFor E.optimalNumBits loaded.elementCount.toNat)
              | none => pure loaded

/-- Decode the raw bytes of a captured root. -/
def decodeSnapshot (E : Env) (raw : Option Bytes) : Except Error (Option IndexRoot) :=
  match raw with
  | none => pure none
  | some raw => do
      let plain ← decryptIndexRootBytes E raw
      let ir ← IndexRoot.deserialise plain
      pure (some ir)

def new (E : Env) (r : Remote) (objcache : Cache) : Except Error PackWriter := do
  let (startSnapshot, startToken) := r.rootRead
  let snapshotRoot ← decodeSnapshot E startSnapshot
  let bloom ← loadRemoteBloom E r snapshotRoot
  pure { objcache, delta := IndexFile.new, packBuf := [], pending := [], bloom, startSnapshot,
         startToken, snapshotRoot }

/-! ## Routing -/

/-- Standalone bytes that could be taken for an object of this layer. -/
def needsEscape (b : Bytes) : Bool :=
  match b with
  | x :: y :: _ => x == 0xED && decide (0xE0 ≤ y) && decide (y ≤ 0xEF)
  | _ => false

def escapeStandalone (b : Bytes) : Bytes :=
  if needsEscape b then standaloneEscapeMagic ++ b else b

/-- Write the pack buffer as a pack file and turn the pending slices into delta entries. -/
def flushPack (E : Env) (r : Remote) (w : PackWriter) : Remote × PackWriter :=
  if w.pending.isEmpty then (r, w)
  else
    let packBytes := packMagic ++ w.packBuf
    let packHash := E.sha256 packBytes
    (r.writeFrom packHash packBytes,
      { w with
        delta := w.delta.pushAll (w.pending.map fun p => .pack ⟨p.1, packHash, p.2.1, p.2.2⟩)
        pending := []
        packBuf := [] })

/-- `write_from`: route one encoded object by its size. -/
def route (E : Env) (r : Remote) (w : PackWriter) (hash : Hash) (encrypted : Bytes) :
    Remote × PackWriter :=
  if hn : encrypted.length < inlineThreshold then
    (r, { w with
      delta := w.delta.push (.inline ⟨hash, encrypted, hn⟩)
      bloom := w.bloom.insert hash })
  else if encrypted.length < packThreshold then
    let w := { w with
      packBuf := w.packBuf ++ encrypted
      pending := w.pending ++
        [(hash, UInt32.ofNat w.packBuf.length, UInt32.ofNat encrypted.length)]
      bloom := w.bloom.insert hash }
    if w.packBuf.length ≥ packTarget ∨ w.packBuf.length ≥ packMax then flushPack E r w
    else (r, w)
  else
    (r.writeFrom hash (escapeStandalone encrypted),
      { w with
        delta := w.delta.push (.standalone ⟨hash⟩)
        bloom := w.bloom.insert hash })

/-! ## Membership -/

/-- Whether the snapshot the writer was opened on indexes `hash`. -/
def indexContains (E : Env) (r : Remote) (w : PackWriter) (hash : Hash) :
    Except Error (Bool × PackWriter) :=
  match w.snapshotRoot with
  | none => pure (false, w)
  | some ir => do
      let (found, objcache) ← Reader.searchFiles E r hash (tierHashes ir hash) w.objcache
      pure (found.isSome, { w with objcache })

/-- `exists`: in flight, or indexed by the snapshot; bytes that merely lie on the remote do not
count. -/
def existsObj (E : Env) (r : Remote) (w : PackWriter) (hash : Hash) :
    Except Error (Bool × PackWriter) :=
  if (w.delta.find hash).isSome then pure (true, w)
  else if w.pending.any (fun p => p.1 == hash) then pure (true, w)
  else if !w.bloom.mayContain hash then pure (false, w)
  else indexContains E r w hash

/-! ## Publishing -/

/-- The root the new INDEX_ROOT is built on: the captured one, never a fresh read. -/
def baseRoot (E : Env) (w : PackWriter) : Except Error IndexRoot := do
  let root ← decodeSnapshot E w.startSnapshot
  pure (root.getD IndexRoot.newEmpty)

/-- Write the delta, if there is one, and put it in front of the delta list. -/
def writeDelta (E : Env) (r : Remote) (w : PackWriter) (ir : IndexRoot) :
    Except Error (Remote × IndexRoot) :=
  if w.delta.isEmpty then pure (r, ir)
  else do
    let bytes ← w.delta.serialise
    let (deltaHash, r) := writeObject E r bytes
    pure (r, { ir with deltaHashes := deltaHash :: ir.deltaHashes })

/-- `finish` up to the root pointer: flush, write delta and filter, build the new INDEX_ROOT and its
stored bytes. -/
def stage (E : Env) (r : Remote) (w : PackWriter) (nonce : Bytes) (newRemoteRoot : Hash) :
    Except Error (IndexRoot × Bytes) × Remote × PackWriter :=
  let (r, w) := flushPack E r w
  match baseRoot E w with
  | .error e => (.error e, r, w)
  | .ok ir =>
      match writeDelta E r w ir with
      | .error e => (.error e, r, w)
      | .ok (r, ir) =>
          let (bloomHash, r) := writeObject E r w.bloom.serialise
          let ir := { ir with remoteRoot := newRemoteRoot, bloomHash := bloomHash }
          match encryptIndexRootBytes E nonce ir with
          | .error e => (.error e, r, w)
          | .ok raw => (.ok (ir, raw), r, w)

/-- `finish`: stage the new root and compare-and-swap it in.  `nonce` is the random nonce of the new
INDEX_ROOT.  The answer is the number of delta files of the published root. -/
def finish (E : Env) (r : Remote) (w : PackWriter) (nonce : Bytes) (newRemoteRoot : Hash) :
    Except Error Nat × Remote × PackWriter :=
  match stage E r w nonce newRemoteRoot with
  | (.error e, r, w) => (.error e, r, w)
  | (.ok (ir, raw), r, w) =>
      match r.casWrite w.startToken raw with
      | .error e => (.error e, r, w)
      | .ok r => (.ok ir.deltaHashes.length, r, w)

/-! ## What each operation leaves alone -/

section Frames

variable {E : Env} {r : Remote} {w : PackWriter}

theorem unescape_escape (b : Bytes) : unescapeStandalone (escapeStandalone b) = b := by
  match b with
  | [] => rfl
  | [x] => rfl
  | x :: y :: rest =>
      unfold escapeStandalone
      split_ifs with h
      · simp [standaloneEscapeMagic, unescapeStandalone]
      · rw [unescapeStandalone, if_neg]
        rintro ⟨rfl, rfl⟩
        exact h rfl

/-- The fields a writer keeps from the moment it is opened. -/
structure SameSnapshot (w w' : PackWriter) : Prop where
  snapshot : w'.startSnapshot = w.startSnapshot
  token : w'.startToken = w.startToken
  root : w'.snapshotRoot = w.snapshotRoot

theorem SameSnapshot.refl (w : PackWriter) : SameSnapshot w w := ⟨rfl, rfl, rfl⟩

theorem SameSnapshot.trans {w₁ w₂ w₃ : PackWriter} (h₁ : SameSnapshot w₁ w₂)
    (h₂ : SameSnapshot w₂ w₃) : SameSnapshot w₁ w₃ :=
  ⟨h₂.snapshot.trans h₁.snapshot, h₂.token.trans h₁.token, h₂.root.trans h₁.root⟩

theorem flushPack_writes : r.Writes (flushPack E r w).1 := by
  unfold flushPack
  split_ifs
  · exact .refl r
  · exact .one r _ _

theorem flushPack_same : SameSnapshot w (flushPack E r w).2 := by
  unfold flushPack
  split_ifs <;> exact ⟨rfl, rfl, rfl⟩

@[simp]
theorem flushPack_bloom : (flushPack E r w).2.bloom = w.bloom := by
  unfold flushPack
  split_ifs <;> rfl

theorem route_writes {h : Hash} {b : Bytes} : r.Writes (route E r w h b).1 := by
  unfold route
  split_ifs
  · exact .refl r
  · simp only
    split_ifs
    · exact flushPack_writes
    · exact .refl r
  · exact .one r _ _

theorem route_same {h : Hash} {b : Bytes} : SameSnapshot w (route E r w h b).2 := by
  unfold route
  split_ifs
  · exact ⟨rfl, rfl, rfl⟩
  · simp only
    split_ifs
    · have hpend : SameSnapshot w { w with
          packBuf := w.packBuf ++ b
          pending := w.pending ++ [(h, UInt32.ofNat w.packBuf.length, UInt32.ofNat b.length)]
          bloom := w.bloom.insert h } := ⟨rfl, rfl, rfl⟩
      exact hpend.trans flushPack_same
    · exact ⟨rfl, rfl, rfl⟩
  · exact ⟨rfl, rfl, rfl⟩

theorem route_bloom {h : Hash} {b : Bytes} :
    (route E r w h b).2.bloom = w.bloom.insert h := by
  unfold route
  split_ifs
  · rfl
  · simp only
    split_ifs
    · exact flushPack_bloom
    · rfl
  · rfl

/-- `exists` changes nothing but the writer's cache. -/
theorem existsObj_frame {h : Hash} {b : Bool} {w' : PackWriter}
    (hx : existsObj E r w h = .ok (b, w')) : ∃ c, w' = { w with objcache := c } := by
  unfold existsObj at hx
  split_ifs at hx
  · cases hx
    exact ⟨w.objcache, rfl⟩
  · cases hx
    exact ⟨w.objcache, rfl⟩
  · cases hx
    exact ⟨w.objcache, rfl⟩
  · unfold indexContains at hx
    split at hx
    · cases hx
      exact ⟨w.objcache, rfl⟩
    · obtain ⟨⟨found, c⟩, _, hx⟩ := bind_eq_ok.mp hx
      cases hx
      exact ⟨c, rfl⟩

theorem writeDelta_cases {ir ir' : IndexRoot} {r' : Remote}
    (hd : writeDelta E r w ir = .ok (r', ir')) :
    (w.delta.isEmpty ∧ r' = r ∧ ir' = ir) ∨
    ∃ bytes, w.delta.isEmpty = false ∧ w.delta.serialise = .ok bytes ∧
      r' = (writeObject E r bytes).2 ∧
      ir' = { ir with deltaHashes := (writeObject E r bytes).1 :: ir.deltaHashes } := by
  unfold writeDelta at hd
  split_ifs at hd with he
  · cases hd
    exact Or.inl ⟨he, rfl, rfl⟩
  · obtain ⟨bytes, hser, hd⟩ := bind_eq_ok.mp hd
    cases hd
    exact Or.inr ⟨bytes, by simpa using he, hser, rfl, rfl⟩

theorem writeDelta_writes {ir ir' : IndexRoot} {r' : Remote}
    (hd : writeDelta E r w ir = .ok (r', ir')) : r.Writes r' := by
  rcases writeDelta_cases hd with ⟨_, rfl, _⟩ | ⟨bytes, _, _, rfl, _⟩
  · exact .refl _
  · exact .one r _ _

/-- What a staged root was built from, step by step. -/
inductive Staged (E : Env) (r : Remote) (w : PackWriter) (nonce : Bytes) (root : Hash) :
    IndexRoot → Bytes → Remote → Prop
  | mk {base irDelta : IndexRoot} {rDelta : Remote} {raw : Bytes}
      (hbase : baseRoot E (flushPack E r w).2 = .ok base)
      (hdelta : writeDelta E (flushPack E r w).1 (flushPack E r w).2 base = .ok (rDelta, irDelta))
      (henc : encryptIndexRootBytes E nonce
        { irDelta with
          remoteRoot := root
          bloomHash := (writeObject E rDelta w.bloom.serialise).1 } = .ok raw) :
      Staged E r w nonce root
        { irDelta with
          remoteRoot := root
          bloomHash := (writeObject E rDelta w.bloom.serialise).1 }
        raw (writeObject E rDelta w.bloom.serialise).2

/-- **`stage_cases`** — staging only adds objects; when it succeeds it went through every step. -/
theorem stage_cases (E : Env) (r : Remote) (w : PackWriter) (nonce : Bytes) (root : Hash)
    {out : Except Error (IndexRoot × Bytes)} {r' : Remote} {w' : PackWriter}
    (hs : stage E r w nonce root = (out, r', w')) :
    r.Writes r' ∧ SameSnapshot w w' ∧
      ∀ ir raw, out = .ok (ir, raw) → Staged E r w nonce root ir raw r' := by
  have hw : r.Writes (flushPack E r w).1 := flushPack_writes
  have hsame : SameSnapshot w (flushPack E r w).2 := flushPack_same
  have hbloom : (flushPack E r w).2.bloom = w.bloom := flushPack_bloom
  unfold stage at hs
  simp only at hs
  cases hbase : baseRoot E (flushPack E r w).2 with
  | error e =>
      rw [hbase] at hs
      cases hs
      exact ⟨hw, hsame, fun _ _ h => nomatch h⟩
  | ok base =>
      rw [hbase] at hs
      cases hdelta : writeDelta E (flushPack E r w).1 (flushPack E r w).2 base with
      | error e =>
          simp only [hdelta] at hs
          cases hs
          exact ⟨hw, hsame, fun _ _ h => nomatch h⟩
      | ok d =>
          obtain ⟨rDelta, irDelta⟩ := d
          simp only [hdelta, hbloom] at hs
          have hw' : r.Writes (writeObject E rDelta w.bloom.serialise).2 :=
            (hw.trans (writeDelta_writes hdelta)).trans (.one rDelta _ _)
          cases henc : encryptIndexRootBytes E nonce
              { irDelta with
                remoteRoot := root
                bloomHash := (writeObject E rDelta w.bloom.serialise).1 } with
          | error e =>
              rw [henc] at hs
              cases hs
              exact ⟨hw', hsame, fun _ _ h => nomatch h⟩
          | ok raw =>
              rw [henc] at hs
              cases hs
              refine ⟨hw', hsame, fun ir raw' h => ?_⟩
              cases h
              exact Staged.mk hbase hdelta henc

/-- With a decodable snapshot, staging fails only when an index outgrows its wire format. -/
theorem stage_error {nonce : Bytes} {root : Hash} {base : IndexRoot} {e : Error}
    (hbase : baseRoot E (flushPack E r w).2 = .ok base)
    (hs : (stage E r w nonce root).1 = .error e) : ∃ msg, e = .other msg := by
  unfold stage at hs
  simp only [hbase] at hs
  cases hdelta : writeDelta E (flushPack E r w).1 (flushPack E r w).2 base with
  | error e' =>
      simp only [hdelta] at hs
      cases hs
      unfold writeDelta at hdelta
      split_ifs at hdelta
      · cases hdelta
      · unfold IndexFile.serialise at hdelta
        split_ifs at hdelta
        · cases hdelta
          exact ⟨_, rfl⟩
        · cases hdelta
  | ok d =>
      simp only [hdelta] at hs
      split at hs
      · next e' henc =>
          cases hs
          unfold encryptIndexRootBytes IndexRoot.serialise at henc
          split_ifs at henc
          · cases henc
            exact ⟨_, rfl⟩
          · cases henc
            exact ⟨_, rfl⟩
          · cases hk : E.key with
            | none =>
                simp only [hk] at henc
                cases henc
            | some k =>
                simp only [hk] at henc
                cases henc
      · cases hs

/-- **`finish_cases`** — a `finish` adds objects, and either fails and leaves the root as it was, or
swaps the staged root in for the root carrying the token the writer was opened with.  Once staged,
the only failure is a token that has moved on. -/
theorem finish_cases (E : Env) (r : Remote) (w : PackWriter) (nonce : Bytes) (root : Hash)
    {out : Except Error Nat} {r' : Remote} {w' : PackWriter}
    (hf : finish E r w nonce root = (out, r', w')) :
    r.Le r' ∧ SameSnapshot w w' ∧
      ((∃ e, out = .error e ∧ r'.root = r.root ∧
          ((stage E r w nonce root).1 = .error e ∨
            e = .casFailed ∧ tokenFor r.root ≠ w.startToken)) ∨
        ∃ ir raw rs, r.Writes rs ∧ Staged E r w nonce root ir raw rs ∧
          out = .ok ir.deltaHashes.length ∧ tokenFor r.root = w.startToken ∧
          r' = { rs with root := some raw }) := by
  unfold finish at hf
  rcases hstage : stage E r w nonce root with ⟨staged, rs, ws⟩
  obtain ⟨hw, hsame, hstaged⟩ := stage_cases E r w nonce root hstage
  rw [hstage] at hf
  cases staged with
  | error e =>
      cases hf
      exact ⟨hw.le, hsame, Or.inl ⟨e, rfl, hw.root, Or.inl rfl⟩⟩
  | ok p =>
      obtain ⟨ir, raw⟩ := p
      have htok : ws.startToken = w.startToken := hsame.token
      simp only [htok] at hf
      cases hcas : rs.casWrite w.startToken raw with
      | error e =>
          have he : e = .casFailed ∧ tokenFor r.root ≠ w.startToken := by
            unfold Remote.casWrite at hcas
            rw [hw.root] at hcas
            split_ifs at hcas with hne
            cases hcas
            exact ⟨rfl, hne⟩
          rw [hcas] at hf
          cases hf
          exact ⟨hw.le, hsame, Or.inl ⟨e, rfl, hw.root, Or.inr he⟩⟩
      | ok rc =>
          obtain ⟨htoken, rfl⟩ := Remote.casWrite_eq_ok.mp hcas
          rw [hcas] at hf
          cases hf
          rw [hw.root] at htoken
          exact ⟨⟨hw.le.objects, hw.le.log⟩, hsame,
            Or.inr ⟨ir, raw, rs, hw, hstaged ir raw rfl, rfl, htoken, rfl⟩⟩

end Frames

end PackWriter

end Omemfs.Pack
