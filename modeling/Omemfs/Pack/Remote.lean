/-
# Omemfs.Pack.Remote — the remote object store, its root pointer and the caches in front of it.

`Env` is what a client is configured with: the hash function, the AEAD, the encryption key and the
floating-point size of a fresh Bloom filter.  A `Remote` is the object store of a remote and its
INDEX_ROOT; writes are idempotent (`writeFrom` keeps the first bytes of a key) and every write
request is logged, so that `Remote.Honest` can say in one line what the storage layer promises: no
key is all zeros, and a key reads back what was written under it.  With a collision-free hash and a
store that returns what was written this is always so; with neither it can fail, and the statements
about whole runs name it as their hypothesis.

Objects are never removed, so a remote only grows (`Remote.Le`), and everything that could be
loaded from it stays loadable (`readIndexFile_mono`).  A local cache is `Faithful` when it holds
what the remote holds; under that, loading through the cache is loading from the remote.
-/
import Mathlib.Logic.Function.Basic
import Omemfs.Pack.IndexFile
import Omemfs.Pack.IndexRoot
import Omemfs.Pack.Bloom

namespace Omemfs.Pack

open Lib

/-! ## The client's configuration and the cipher -/

/-- A 32-byte AES-256 key. -/
structure EncryptKey where
  bytes : Bytes
  deriving DecidableEq

def tagLen : Nat := 16

/-- Hash function, AEAD, key and filter sizing of a client. -/
structure Env where
  sha256 : Bytes → Hash
  aesGcmEncrypt : EncryptKey → Bytes → Bytes → Bytes
  aesGcmDecrypt : EncryptKey → Bytes → Bytes → Option Bytes
  decrypt_encrypt : ∀ k n p, aesGcmDecrypt k n (aesGcmEncrypt k n p) = some p
  tagLen_le : ∀ k n p, tagLen ≤ (aesGcmEncrypt k n p).length
  key : Option EncryptKey
  optimalNumBits : Nat → UInt64

/-- Encrypt under the nonce `objectHash[..12]`; passthrough without a key. -/
def encrypt (E : Env) (data objectHash : Bytes) : Bytes :=
  match E.key with
  | none => data
  | some k => E.aesGcmEncrypt k (objectHash.take 12) data

/-- Decrypt and authenticate; passthrough without a key. -/
def decrypt (E : Env) (data objectHash : Bytes) : Except Error Bytes :=
  match E.key with
  | none => .ok data
  | some k =>
      if data.length < tagLen then .error .authTagMismatch
      else match E.aesGcmDecrypt k (objectHash.take 12) data with
        | some p => .ok p
        | none => .error .authTagMismatch

theorem decrypt_encrypt (E : Env) (p n : Bytes) : decrypt E (encrypt E p n) n = .ok p := by
  unfold decrypt encrypt
  cases E.key with
  | none => rfl
  | some k =>
      have hlen : ¬ (E.aesGcmEncrypt k (n.take 12) p).length < tagLen :=
        not_lt.mpr (E.tagLen_le k (n.take 12) p)
      simp only [hlen, if_false, E.decrypt_encrypt]

/-- INDEX_ROOT bytes to plaintext: the nonce is stored in front of the ciphertext. -/
def decryptIndexRootBytes (E : Env) (raw : Bytes) : Except Error Bytes :=
  match E.key with
  | none => .ok raw
  | some _ =>
      if raw.length < 12 then
        .error (.invalidObject "INDEX_ROOT too short to contain nonce")
      else decrypt E (raw.drop 12) (raw.take 12)

/-- INDEX_ROOT to stored bytes under a fresh 12-byte nonce. -/
def encryptIndexRootBytes (E : Env) (nonce : Bytes) (ir : IndexRoot) : Except Error Bytes := do
  let plaintext ← ir.serialise
  match E.key with
  | none => pure plaintext
  | some _ => pure (nonce ++ encrypt E plaintext nonce)

/-! ## The store and the root pointer -/

/-- Version token of the root pointer: the local backend uses the stored bytes. -/
inductive RootToken where
  | absent
  | present (bytes : Bytes)
  deriving DecidableEq

def tokenFor : Option Bytes → RootToken
  | none => .absent
  | some b => .present b

structure Remote where
  objects : Hash → Option Bytes
  root : Option Bytes
  /-- every `write_from` request served, latest first -/
  log : List (Hash × Bytes)

namespace Remote

def openRead (r : Remote) (h : Hash) : Except Error Bytes :=
  match r.objects h with
  | some b => .ok b
  | none => .error (.objectNotFound h.asStr)

def size (r : Remote) (h : Hash) : Except Error Nat := do
  let b ← r.openRead h
  pure b.length

/-- Idempotent write: an existing object keeps its bytes. -/
def writeFrom (r : Remote) (h : Hash) (b : Bytes) : Remote :=
  { r with
    objects := fun k => if k = h then some ((r.objects h).getD b) else r.objects k
    log := (h, b) :: r.log }

/-- Read the root pointer with the token observed. -/
def rootRead (r : Remote) : Option Bytes × RootToken := (r.root, tokenFor r.root)

/-- Write the root only if its token is still the expected one. -/
def casWrite (r : Remote) (expected : RootToken) (new : Bytes) : Except Error Remote :=
  if tokenFor r.root ≠ expected then .error .casFailed
  else .ok { r with root := some new }

/-- The storage layer kept its word for every write logged so far. -/
def Honest (r : Remote) : Prop :=
  ∀ w ∈ r.log, w.1 ≠ zeroHash ∧ r.objects w.1 = some w.2

instance (r : Remote) : Decidable r.Honest :=
  inferInstanceAs (Decidable (∀ w ∈ r.log, w.1 ≠ zeroHash ∧ r.objects w.1 = some w.2))

/-- `r'` holds every object of `r` and has served every write `r` has. -/
structure Le (r r' : Remote) : Prop where
  objects : ∀ {h b}, r.objects h = some b → r'.objects h = some b
  log : r.log ⊆ r'.log

theorem Le.refl (r : Remote) : Le r r := ⟨id, List.Subset.refl _⟩

theorem Le.trans {r₁ r₂ r₃ : Remote} (h₁ : Le r₁ r₂) (h₂ : Le r₂ r₃) : Le r₁ r₃ :=
  ⟨fun h => h₂.objects (h₁.objects h), List.Subset.trans h₁.log h₂.log⟩

theorem le_writeFrom (r : Remote) (h : Hash) (b : Bytes) : Le r (r.writeFrom h b) := by
  refine ⟨fun {k x} hk => ?_, List.subset_cons_self _ _⟩
  by_cases hkh : k = h
  · subst hkh
    simp [writeFrom, hk]
  · simp [writeFrom, hkh, hk]

theorem log_writeFrom (r : Remote) (h : Hash) (b : Bytes) : (h, b) ∈ (r.writeFrom h b).log :=
  List.mem_cons_self ..

/-- What an honest later state says about a write made on the way. -/
theorem Honest.objects_of_le {r r' : Remote} (hr' : r'.Honest) (hle : Le r r') {h : Hash}
    {b : Bytes} (hw : (h, b) ∈ r.log) : r'.objects h = some b :=
  (hr' (h, b) (hle.log hw)).2

theorem Honest.ne_zero_of_le {r r' : Remote} (hr' : r'.Honest) (hle : Le r r') {h : Hash}
    {b : Bytes} (hw : (h, b) ∈ r.log) : h ≠ zeroHash :=
  (hr' (h, b) (hle.log hw)).1

/-- `r'` is `r` after some object writes. -/
inductive Writes : Remote → Remote → Prop
  | refl (r : Remote) : Writes r r
  | write {r r' : Remote} (h : Hash) (b : Bytes) : Writes r r' → Writes r (r'.writeFrom h b)

namespace Writes

variable {r r' r'' : Remote}

theorem trans (h₁ : Writes r r') (h₂ : Writes r' r'') : Writes r r'' := by
  induction h₂ with
  | refl => exact h₁
  | write h b _ ih => exact .write h b ih

theorem one (r : Remote) (h : Hash) (b : Bytes) : Writes r (r.writeFrom h b) := .write h b (.refl r)

theorem le (h : Writes r r') : r.Le r' := by
  induction h with
  | refl => exact Le.refl r
  | write h b _ ih => exact ih.trans (le_writeFrom _ h b)

theorem root (h : Writes r r') : r'.root = r.root := by
  induction h with
  | refl => rfl
  | write h b _ ih => exact ih

/-- Distinct nonzero keys, each holding nothing or what is written. -/
def freshLog (r : Remote) (log : List (Hash × Bytes)) : Bool :=
  decide (log.map Prod.fst).Nodup && log.all fun w =>
    w.1 != zeroHash && match r.objects w.1 with
      | none => true
      | some b => b == w.2

/-- The first writes to a store, under such keys, are all honoured. -/
theorem honest (h : Writes r r') (hlog : r.log = []) (hfresh : freshLog r r'.log = true) :
    r'.Honest := by
  rcases (Bool.and_eq_true ..).mp hfresh with ⟨hnd, hall⟩
  rw [List.all_eq_true] at hall
  -- what a key holds: the bytes written under it, else what it held at the start
  have key : ∀ r₁, Writes r r₁ → (∀ w ∈ r₁.log, w ∈ r'.log) → (r₁.log.map Prod.fst).Nodup →
      r₁.Honest ∧ ∀ k, k ∉ r₁.log.map Prod.fst → r₁.objects k = r.objects k := by
    intro r₁ hw
    induction hw with
    | refl =>
        intro _ _
        constructor
        · intro w hmem
          rw [hlog] at hmem
          cases hmem
        · intro k _
          rfl
    | @write r₂ k b _ ih =>
        intro hsub hnd₁
        have hnd₂ := List.nodup_cons.mp hnd₁
        rcases ih (fun w hmem => hsub w (List.mem_cons_of_mem _ hmem)) hnd₂.2 with ⟨hon, hrest⟩
        rcases (Bool.and_eq_true ..).mp (hall (k, b) (hsub _ (List.mem_cons_self ..))) with
          ⟨hk, hheld⟩
        constructor
        · intro w hmem
          rcases List.mem_cons.mp hmem with rfl | hold
          · refine ⟨bne_iff_ne.mp hk, ?_⟩
            show (if k = k then _ else _) = _
            rw [if_pos rfl, hrest k hnd₂.1]
            cases hobj : r.objects k with
            | none => rfl
            | some x =>
                rw [hobj] at hheld
                exact congrArg _ (beq_iff_eq.mp hheld)
          · have hne : w.1 ≠ k := by
              rintro rfl
              exact hnd₂.1 (List.mem_map.mpr ⟨w, hold, rfl⟩)
            refine ⟨(hon w hold).1, ?_⟩
            show (if w.1 = k then _ else _) = _
            rw [if_neg hne]
            exact (hon w hold).2
        · intro j hj
          have hne : j ≠ k := fun h => hj (h ▸ List.mem_cons_self ..)
          show (if j = k then _ else _) = _
          rw [if_neg hne]
          exact hrest j fun h => hj (List.mem_cons_of_mem k h)
  exact (key r' h (fun _ hmem => hmem) (of_decide_eq_true hnd)).1

end Writes

theorem openRead_eq_ok {r : Remote} {h : Hash} {b : Bytes} :
    r.openRead h = .ok b ↔ r.objects h = some b := by
  unfold openRead
  cases r.objects h <;> simp

theorem openRead_mono {r r' : Remote} (hle : Le r r') {h : Hash} {b : Bytes}
    (hb : r.openRead h = .ok b) : r'.openRead h = .ok b :=
  openRead_eq_ok.mpr (hle.objects (openRead_eq_ok.mp hb))

theorem casWrite_eq_ok {r r' : Remote} {t : RootToken} {new : Bytes} :
    r.casWrite t new = .ok r' ↔ tokenFor r.root = t ∧ r' = { r with root := some new } := by
  unfold casWrite
  split_ifs with h
  · simp [h]
  · simp only [not_not.mp h, true_and, Except.ok.injEq]
    exact eq_comm

end Remote

/-! ## Objects of the index, straight from the remote -/

/-- The decrypted bytes of object `h`. -/
def plaintext (E : Env) (r : Remote) (h : Hash) : Except Error Bytes := do
  let stored ← r.openRead h
  decrypt E stored h.toBytes

def readIndexFile (E : Env) (r : Remote) (h : Hash) : Except Error IndexFile := do
  let raw ← plaintext E r h
  IndexFile.deserialise raw

def readBloomFilter (E : Env) (r : Remote) (h : Hash) : Except Error BloomFilter := do
  let raw ← plaintext E r h
  BloomFilter.deserialise raw

/-- The decoded INDEX_ROOT, `none` when the remote has none. -/
def readIndexRoot (E : Env) (r : Remote) : Except Error (Option IndexRoot) :=
  match r.rootRead.1 with
  | none => pure none
  | some raw => do
      let plain ← decryptIndexRootBytes E raw
      let ir ← IndexRoot.deserialise plain
      pure (some ir)

theorem plaintext_mono {E : Env} {r r' : Remote} (hle : r.Le r') {h : Hash} {p : Bytes}
    (hp : plaintext E r h = .ok p) : plaintext E r' h = .ok p := by
  obtain ⟨s, hs, hd⟩ := bind_eq_ok.mp hp
  exact bind_eq_ok.mpr ⟨s, Remote.openRead_mono hle hs, hd⟩

theorem readIndexFile_mono {E : Env} {r r' : Remote} (hle : r.Le r') {h : Hash} {f : IndexFile}
    (hf : readIndexFile E r h = .ok f) : readIndexFile E r' h = .ok f := by
  obtain ⟨p, hp, hd⟩ := bind_eq_ok.mp hf
  exact bind_eq_ok.mpr ⟨p, plaintext_mono hle hp, hd⟩

/-- A file whose object was there before reads back the same. -/
theorem readIndexFile_of_le {E : Env} {r r' : Remote} (hle : r.Le r') {h : Hash} {b : Bytes}
    (hb : r.objects h = some b) {f : IndexFile} (hf : readIndexFile E r' h = .ok f) :
    readIndexFile E r h = .ok f := by
  have hopen : r.openRead h = r'.openRead h :=
    (Remote.openRead_eq_ok.mpr hb).trans (Remote.openRead_eq_ok.mpr (hle.objects hb)).symm
  rw [readIndexFile, plaintext, hopen]
  exact hf

theorem readBloomFilter_mono {E : Env} {r r' : Remote} (hle : r.Le r') {h : Hash}
    {bf : BloomFilter} (hf : readBloomFilter E r h = .ok bf) : readBloomFilter E r' h = .ok bf := by
  obtain ⟨p, hp, hd⟩ := bind_eq_ok.mp hf
  exact bind_eq_ok.mpr ⟨p, plaintext_mono hle hp, hd⟩

theorem readIndexRoot_congr {E : Env} {r r' : Remote} (h : r.root = r'.root) :
    readIndexRoot E r = readIndexRoot E r' := by
  simp only [readIndexRoot, Remote.rootRead, h]

/-- **`readIndexRoot_published`** — a published root is read back. -/
theorem readIndexRoot_published {E : Env} {r : Remote} {nonce raw : Bytes} {ir : IndexRoot}
    (hnonce : nonce.length = 12) (hbits : ir.coldPrefixBits.toNat ≤ 32)
    (henc : encryptIndexRootBytes E nonce ir = .ok raw) (hroot : r.root = some raw) :
    readIndexRoot E r = .ok (some ir) := by
  obtain ⟨plain, hser, hraw⟩ := bind_eq_ok.mp henc
  have hdec : decryptIndexRootBytes E raw = .ok plain := by
    unfold decryptIndexRootBytes
    cases hk : E.key with
    | none =>
        simp only [hk, pure, Except.pure, Except.ok.injEq] at hraw
        rw [hraw]
    | some k =>
        simp only [hk, pure, Except.pure, Except.ok.injEq] at hraw
        have hlen : ¬ raw.length < 12 := by
          rw [← hraw, List.length_append]
          omega
        have htake : raw.take 12 = nonce := by
          rw [← hraw]
          exact List.take_left' hnonce
        have hdrop : raw.drop 12 = encrypt E plain nonce := by
          rw [← hraw]
          exact List.drop_left' hnonce
        simp only [hlen, if_false, htake, hdrop, decrypt_encrypt]
  simp only [readIndexRoot, Remote.rootRead, hroot, hdec, bind, Except.bind,
    IndexRoot.deserialise_serialise hser hbits, pure, Except.pure]

/-- The root a remote records has at most 32 prefix bits and a full shard table. -/
theorem readIndexRoot_wellFormed {E : Env} {r : Remote} {ir : IndexRoot}
    (h : readIndexRoot E r = .ok (some ir)) :
    ir.coldPrefixBits.toNat ≤ 32 ∧ ir.coldShards.length = ir.coldShardCount := by
  unfold readIndexRoot at h
  cases hroot : r.rootRead.1 with
  | none =>
      rw [hroot] at h
      cases h
  | some raw =>
      rw [hroot] at h
      obtain ⟨plain, _, h⟩ := bind_eq_ok.mp h
      obtain ⟨ir', hir', h⟩ := bind_eq_ok.mp h
      cases h
      exact IndexRoot.deserialise_wellFormed hir'

/-! ## Writing objects of the index -/

/-- Encrypt `plain` and write it under its hash. -/
def writeObject (E : Env) (r : Remote) (plain : Bytes) : Hash × Remote :=
  let hash := E.sha256 plain
  (hash, r.writeFrom hash (encrypt E plain hash.toBytes))

theorem le_writeObject (E : Env) (r : Remote) (plain : Bytes) :
    r.Le (writeObject E r plain).2 :=
  Remote.le_writeFrom _ _ _

@[simp]
theorem root_writeObject (E : Env) (r : Remote) (plain : Bytes) :
    (writeObject E r plain).2.root = r.root := rfl

/-- An object written on the way is found, as plaintext, in any honest later state. -/
theorem plaintext_writeObject {E : Env} {r r' : Remote} {plain : Bytes} (hr' : r'.Honest)
    (hle : (writeObject E r plain).2.Le r') :
    plaintext E r' (writeObject E r plain).1 = .ok plain := by
  have hobj := hr'.objects_of_le hle (Remote.log_writeFrom r _ _)
  exact bind_eq_ok.mpr ⟨_, Remote.openRead_eq_ok.mpr hobj, decrypt_encrypt E _ _⟩

theorem ne_zero_writeObject {E : Env} {r r' : Remote} {plain : Bytes} (hr' : r'.Honest)
    (hle : (writeObject E r plain).2.Le r') : (writeObject E r plain).1 ≠ zeroHash :=
  hr'.ne_zero_of_le hle (Remote.log_writeFrom r _ _)

theorem readBloomFilter_writeObject {E : Env} {r r' : Remote} {bf : BloomFilter}
    (hr' : r'.Honest) (hle : (writeObject E r bf.serialise).2.Le r') :
    readBloomFilter E r' (writeObject E r bf.serialise).1 = .ok bf :=
  bind_eq_ok.mpr ⟨_, plaintext_writeObject hr' hle, BloomFilter.deserialise_serialise bf⟩

/-! ## Loading through the local cache -/

/-- The plaintext cache of a client: content-addressed objects it has fetched before. -/
abbrev Cache := Hash → Option Bytes

/-- The cache holds what the remote holds. -/
def Faithful (E : Env) (r : Remote) (c : Cache) : Prop :=
  ∀ ⦃h p⦄, c h = some p → plaintext E r h = .ok p

theorem Faithful.mono {E : Env} {r r' : Remote} {c : Cache} (hc : Faithful E r c)
    (hle : r.Le r') : Faithful E r' c :=
  fun _ _ h => plaintext_mono hle (hc h)

/-- Cache hit: the cached plaintext.  Miss: fetch, decrypt, and keep a copy. -/
def loadCachedPlaintext (E : Env) (r : Remote) (c : Cache) (h : Hash) :
    Except Error (Bytes × Cache) :=
  match c h with
  | some p => .ok (p, c)
  | none => do
      let p ← plaintext E r h
      pure (p, Function.update c h (some p))

def loadIndexFile (E : Env) (r : Remote) (c : Cache) (h : Hash) :
    Except Error (IndexFile × Cache) := do
  let (raw, c) ← loadCachedPlaintext E r c h
  let f ← IndexFile.deserialise raw
  pure (f, c)

def loadBloomFilter (E : Env) (r : Remote) (c : Cache) (h : Hash) :
    Except Error (BloomFilter × Cache) := do
  let (raw, c) ← loadCachedPlaintext E r c h
  let bf ← BloomFilter.deserialise raw
  pure (bf, c)

section Faithful

variable {E : Env} {r : Remote} {c : Cache}

theorem Faithful.update (hc : Faithful E r c) {h : Hash} {p : Bytes}
    (hp : plaintext E r h = .ok p) : Faithful E r (Function.update c h (some p)) := by
  intro k q hk
  by_cases hkh : k = h
  · subst hkh
    rw [Function.update_self] at hk
    cases hk
    exact hp
  · rw [Function.update_of_ne hkh] at hk
    exact hc hk

theorem loadCachedPlaintext_sound (hc : Faithful E r c) {h : Hash} {p : Bytes} {c' : Cache}
    (hl : loadCachedPlaintext E r c h = .ok (p, c')) :
    plaintext E r h = .ok p ∧ Faithful E r c' := by
  unfold loadCachedPlaintext at hl
  cases hch : c h with
  | some q =>
      rw [hch] at hl
      cases hl
      exact ⟨hc hch, hc⟩
  | none =>
      rw [hch] at hl
      obtain ⟨q, hq, hl⟩ := bind_eq_ok.mp hl
      cases hl
      exact ⟨hq, hc.update hq⟩

theorem loadCachedPlaintext_complete (hc : Faithful E r c) {h : Hash} {p : Bytes}
    (hp : plaintext E r h = .ok p) :
    ∃ c', loadCachedPlaintext E r c h = .ok (p, c') ∧ Faithful E r c' := by
  unfold loadCachedPlaintext
  cases hch : c h with
  | some q =>
      have hq : q = p := by
        have := hc hch
        rw [hp] at this
        cases this
        rfl
      subst hq
      exact ⟨c, rfl, hc⟩
  | none => exact ⟨_, bind_eq_ok.mpr ⟨p, hp, rfl⟩, hc.update hp⟩

/-- **`loadIndexFile_sound`** — a file loaded through a faithful cache is the remote's file. -/
theorem loadIndexFile_sound (hc : Faithful E r c) {h : Hash} {f : IndexFile} {c' : Cache}
    (hl : loadIndexFile E r c h = .ok (f, c')) :
    readIndexFile E r h = .ok f ∧ Faithful E r c' := by
  obtain ⟨⟨raw, c₁⟩, hraw, hl⟩ := bind_eq_ok.mp hl
  obtain ⟨f', hf, hl⟩ := bind_eq_ok.mp hl
  cases hl
  obtain ⟨hp, hc'⟩ := loadCachedPlaintext_sound hc hraw
  exact ⟨bind_eq_ok.mpr ⟨raw, hp, hf⟩, hc'⟩

theorem loadIndexFile_complete (hc : Faithful E r c) {h : Hash} {f : IndexFile}
    (hf : readIndexFile E r h = .ok f) :
    ∃ c', loadIndexFile E r c h = .ok (f, c') ∧ Faithful E r c' := by
  obtain ⟨p, hp, hd⟩ := bind_eq_ok.mp hf
  obtain ⟨c', hl, hc'⟩ := loadCachedPlaintext_complete hc hp
  exact ⟨c', bind_eq_ok.mpr ⟨_, hl, bind_eq_ok.mpr ⟨f, hd, rfl⟩⟩, hc'⟩

theorem loadBloomFilter_sound (hc : Faithful E r c) {h : Hash} {bf : BloomFilter} {c' : Cache}
    (hl : loadBloomFilter E r c h = .ok (bf, c')) :
    readBloomFilter E r h = .ok bf ∧ Faithful E r c' := by
  obtain ⟨⟨raw, c₁⟩, hraw, hl⟩ := bind_eq_ok.mp hl
  obtain ⟨f', hf, hl⟩ := bind_eq_ok.mp hl
  cases hl
  obtain ⟨hp, hc'⟩ := loadCachedPlaintext_sound hc hraw
  exact ⟨bind_eq_ok.mpr ⟨raw, hp, hf⟩, hc'⟩

theorem loadBloomFilter_complete (hc : Faithful E r c) {h : Hash} {bf : BloomFilter}
    (hf : readBloomFilter E r h = .ok bf) :
    ∃ c', loadBloomFilter E r c h = .ok (bf, c') ∧ Faithful E r c' := by
  obtain ⟨p, hp, hd⟩ := bind_eq_ok.mp hf
  obtain ⟨c', hl, hc'⟩ := loadCachedPlaintext_complete hc hp
  exact ⟨c', bind_eq_ok.mpr ⟨_, hl, bind_eq_ok.mpr ⟨bf, hd, rfl⟩⟩, hc'⟩

end Faithful

theorem faithful_empty (E : Env) (r : Remote) : Faithful E r fun _ => none :=
  fun _ _ h => nomatch h

/-! ## A concrete configuration

An unencrypted client with a toy hash of the leading bytes, for runs on concrete inputs.  The
filter size is the floating-point formula at one percent, in exact decimal arithmetic. -/

def sampleEnv : Env where
  sha256 b := BitVec.ofNat 256 (1 + Bytes.ofBE (1 :: b.take 96) % (2 ^ 255 - 19))
  aesGcmEncrypt _ _ p := p ++ List.replicate tagLen 0
  aesGcmDecrypt _ _ c := some (c.take (c.length - tagLen))
  decrypt_encrypt _ _ p := by simp
  tagLen_le _ _ p := by simp
  key := none
  optimalNumBits n := UInt64.ofNat ((n * 9585058377367439 + 999999999999999) / 1000000000000000)

theorem sampleData_fits : ([42] : Bytes).length < 256 := by decide

/-- A remote holding exactly the given objects. -/
def Remote.ofObjects (objects : List (Hash × Bytes)) (root : Option Bytes) : Remote where
  objects h := objects.lookup h
  root := root
  log := []

end Omemfs.Pack
