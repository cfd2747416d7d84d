/-
# Omemfs.Pack.Consolidate — repacking small pack files, entry by entry.

The entries of packs below the threshold are copied into new packs, and everything else stays as it is.
The loop only collects: the new packs are written after the last entry, so an entry that leaves its pack
stops the call before anything is written (`consolidatePackFilesOn_spec`).
-/
import Omemfs.Pack.Preserve

namespace Omemfs.Pack.Compact

open Lib

/-! ## The call with the remote it leaves -/

/-- `consolidate_pack_files`, with the remote also where it fails. -/
def consolidatePackFilesOn (E : Env) (ch : Choices) (r : Remote) (entries : List IndexEntry) :
    Except Error (List IndexEntry) × Remote :=
  match packSizes r entries [] with
  | .error e => (.error e, r)
  | .ok sizes =>
      let candidates := (sizes.filter fun s => s.2 < consolidationThreshold).map Prod.fst
      if candidates.isEmpty then (.ok entries, r)
      else
        match readPacks r candidates with
        | .error e => (.error e, r)
        | .ok bufs =>
            match repack bufs entries ⟨[], [], [], IndexFile.new⟩ with
            | .error e => (.error e, r)
            | .ok s =>
                let completed := if s.newPackEntries.isEmpty then s.completedPacks
                  else s.completedPacks ++ [(s.newBuf, s.newPackEntries)]
                let (r, updated) := writePacks E completed r s.updated
                (.ok (ch.updatedOrder updated.entries), r)

theorem consolidatePackFilesOn_eq (E : Env) (ch : Choices) (r : Remote) (entries : List IndexEntry) :
    consolidatePackFilesOn E ch r entries =
      match consolidatePackFiles E ch r entries with
      | .ok (out, r') => (.ok out, r')
      | .error e => (.error e, r) := by
  unfold consolidatePackFilesOn consolidatePackFiles
  cases packSizes r entries [] with
  | error e => rfl
  | ok sizes =>
      simp only [bind, Except.bind]
      split_ifs with hnone
      · rfl
      · cases readPacks r ((sizes.filter fun s => s.2 < consolidationThreshold).map Prod.fst) with
        | error e => rfl
        | ok bufs =>
            simp only
            cases repack bufs entries ⟨[], [], [], IndexFile.new⟩ with
            | error e => rfl
            | ok s => rfl

/-! ## Which entries move -/

/-- The entry lies in a pack below the threshold. -/
def candidate (r : Remote) : IndexEntry → Bool
  | .pack e => okAnd (r.size e.packHash) fun n => n < consolidationThreshold
  | _ => false

/-- The entry's slice leaves its pack. -/
def OutOfRange (r : Remote) (e : PackEntry) : Prop :=
  ∃ pack, r.objects e.packHash = some pack ∧
    pack.length < packBodyOffset + e.offset.toNat + e.length.toNat

/-- The pack of the entry was read. -/
def moves (bufs : List (Hash × Bytes)) : IndexEntry → Bool
  | .pack e => (bufs.lookup e.packHash).isSome
  | _ => false

section Loop

variable {r : Remote} {bufs : List (Hash × Bytes)}

/-- The hashes with a slice in a new pack. -/
def Repack.moved (s : Repack) : List Hash := (s.packs.flatMap Prod.snd).map Prod.fst

/-- Offsets into the open pack and slices of every pack fit into 32 bits. -/
def Repack.Small (s : Repack) : Prop :=
  s.newBuf.length < packTarget ∧ ∀ pk ∈ s.packs, pk.1.length < UInt32.size

/-- **`repackEntry_spec`** — an entry is kept, or gets a slice; then it lies within its pack. -/
theorem repackEntry_spec (hbufs : ∀ ph pack, bufs.lookup ph = some pack →
      pack.length < consolidationThreshold) {s s' : Repack} (hsmall : s.Small) {e : IndexEntry}
    (hs : repackEntry bufs s e = .ok s') :
    s'.Small ∧ (moves bufs e = false ∧ s'.updated = s.updated.push e ∧ s'.moved = s.moved ∨
      ∃ pe pack, e = .pack pe ∧ bufs.lookup pe.packHash = some pack ∧
        packBodyOffset + pe.offset.toNat + pe.length.toNat ≤ pack.length ∧
        s'.updated = s.updated ∧ s'.moved = s.moved ++ [pe.hash]) := by
  unfold repackEntry at hs
  split at hs
  · next pe =>
      cases hbuf : bufs.lookup pe.packHash with
      | none =>
          simp only [hbuf] at hs
          cases hs
          exact ⟨hsmall, .inl ⟨by rw [moves, hbuf]; rfl, rfl, rfl⟩⟩
      | some pack =>
          simp only [hbuf] at hs
          have hpack := hbufs pe.packHash pack hbuf
          have hopen := hsmall.1
          have htarget : packTarget = 4194304 := rfl
          have hthreshold : consolidationThreshold = 2097152 := rfl
          have hsize : UInt32.size = 4294967296 := rfl
          split_ifs at hs with hend hflush
          · have hlen := @Bytes.length_slice (packBodyOffset + pe.offset.toNat) pe.length.toNat pack (by omega)
            cases hs
            refine ⟨⟨by show 0 < packTarget; omega, ?_⟩, .inr ⟨pe, pack, rfl, hbuf, by omega, rfl, ?_⟩⟩
            · intro pk hpk
              rcases List.mem_append.mp hpk with hpk | hpk
              · rcases List.mem_append.mp hpk with hpk | hpk
                · exact hsmall.2 pk (List.mem_append_left _ hpk)
                · obtain rfl := List.mem_singleton.mp hpk
                  rw [List.length_append, hlen]
                  omega
              · obtain rfl := List.mem_singleton.mp hpk
                show 0 < UInt32.size
                omega
            · simp [Repack.moved, Repack.packs]
          · have hlen := @Bytes.length_slice (packBodyOffset + pe.offset.toNat) pe.length.toNat pack (by omega)
            cases hs
            refine ⟨⟨?_, ?_⟩, .inr ⟨pe, pack, rfl, hbuf, by omega, rfl, ?_⟩⟩
            · show (s.newBuf ++ _).length < packTarget
              omega
            · intro pk hpk
              rcases List.mem_append.mp hpk with hpk | hpk
              · exact hsmall.2 pk (List.mem_append_left _ hpk)
              · obtain rfl := List.mem_singleton.mp hpk
                show (s.newBuf ++ _).length < UInt32.size
                omega
            · simp [Repack.moved, Repack.packs]
  · next hno =>
      cases hs
      refine ⟨hsmall, .inl ⟨?_, rfl, rfl⟩⟩
      cases e with
      | pack pe => exact absurd rfl (hno pe)
      | inline _ => rfl
      | standalone _ => rfl

/-- **`repack_spec`** — the loop keeps the entries that do not move, in order, and gives every other one
a slice. -/
theorem repack_spec (hbufs : ∀ ph pack, bufs.lookup ph = some pack →
      pack.length < consolidationThreshold) {es : List IndexEntry} {s s' : Repack} (hsmall : s.Small)
    (hs : repack bufs es s = .ok s') :
    s'.Small ∧ s'.updated = s.updated.pushAll (es.filter fun e => !moves bufs e) ∧
      s'.moved = s.moved ++ (es.filter (moves bufs)).map IndexEntry.hash ∧
      ∀ pe, .pack pe ∈ es → ∀ pack, bufs.lookup pe.packHash = some pack →
        packBodyOffset + pe.offset.toNat + pe.length.toNat ≤ pack.length := by
  induction es generalizing s with
  | nil =>
      cases hs
      exact ⟨hsmall, rfl, (List.append_nil _).symm, fun _ h => nomatch h⟩
  | cons e es ih =>
      obtain ⟨s₁, hstep, hs⟩ := bind_eq_ok.mp hs
      obtain ⟨hsmall₁, hcase⟩ := repackEntry_spec hbufs hsmall hstep
      obtain ⟨hsmall', hupdated, hmoved, hrange⟩ := ih hsmall₁ hs
      rcases hcase with ⟨hstay, hu, hm⟩ | ⟨pe, pack, rfl, hbuf, hend, hu, hm⟩
      · refine ⟨hsmall', ?_, ?_, ?_⟩
        · rw [hupdated, hu, List.filter_cons_of_pos (by rw [hstay]; rfl)]
          rfl
        · rw [hmoved, hm, List.filter_cons_of_neg (by rw [hstay]; decide)]
        · intro pe hpe pack hbuf
          rcases List.mem_cons.mp hpe with rfl | hpe
          · rw [moves, hbuf] at hstay
            cases hstay
          · exact hrange pe hpe pack hbuf
      · have hmoves : moves bufs (.pack pe) = true := by rw [moves, hbuf]; rfl
        refine ⟨hsmall', ?_, ?_, ?_⟩
        · rw [hupdated, hu, List.filter_cons_of_neg (by rw [hmoves]; decide)]
        · rw [hmoved, hm, List.filter_cons_of_pos hmoves, List.append_assoc]
          rfl
        · intro pe' hpe' pack' hbuf'
          rcases List.mem_cons.mp hpe' with heq | hpe'
          · cases heq
            rw [hbuf] at hbuf'
            obtain rfl := Option.some.inj hbuf'
            exact hend
          · exact hrange pe' hpe' pack' hbuf'

end Loop

/-! ## Which packs are read -/

section Packs

variable {r : Remote}

theorem packSizes_covers {es : List IndexEntry} {sizes sizes' : List (Hash × Nat)}
    (hs : packSizes r es sizes = .ok sizes') :
    sizes ⊆ sizes' ∧ ∀ pe, .pack pe ∈ es → ∃ n, (pe.packHash, n) ∈ sizes' := by
  induction es generalizing sizes with
  | nil =>
      cases hs
      exact ⟨List.Subset.refl _, fun _ h => nomatch h⟩
  | cons e es ih =>
      cases e with
      | inline e =>
          obtain ⟨hsub, hall⟩ := ih hs
          exact ⟨hsub, fun pe hpe => hall pe ((List.mem_cons.mp hpe).resolve_left nofun)⟩
      | standalone e =>
          obtain ⟨hsub, hall⟩ := ih hs
          exact ⟨hsub, fun pe hpe => hall pe ((List.mem_cons.mp hpe).resolve_left nofun)⟩
      | pack e =>
          unfold packSizes at hs
          split_ifs at hs with hthere
          · obtain ⟨hsub, hall⟩ := ih hs
            refine ⟨hsub, fun pe hpe => ?_⟩
            rcases List.mem_cons.mp hpe with heq | hpe
            · cases heq
              obtain ⟨n, hn⟩ := Option.isSome_iff_exists.mp hthere
              obtain ⟨before, after, rfl, -⟩ := List.lookup_eq_some_iff.mp hn
              exact ⟨n, hsub (List.mem_append_right _ (List.mem_cons_self ..))⟩
            · exact hall pe hpe
          · obtain ⟨n, -, hs⟩ := bind_eq_ok.mp hs
            obtain ⟨hsub, hall⟩ := ih hs
            refine ⟨fun _ h => hsub (List.mem_append_left _ h), fun pe hpe => ?_⟩
            rcases List.mem_cons.mp hpe with heq | hpe
            · cases heq
              exact ⟨n, hsub (List.mem_append_right _ (List.mem_singleton_self _))⟩
            · exact hall pe hpe

theorem readPacks_covers {phs : List Hash} {bufs : List (Hash × Bytes)}
    (hr : readPacks r phs = .ok bufs) {ph : Hash} (hph : ph ∈ phs) : (bufs.lookup ph).isSome := by
  induction phs generalizing bufs with
  | nil => cases hph
  | cons k phs ih =>
      obtain ⟨b, -, hr⟩ := bind_eq_ok.mp hr
      obtain ⟨rest, hrest, hr⟩ := bind_eq_ok.mp hr
      cases hr
      rw [List.lookup_cons]
      by_cases hk : ph = k
      · subst hk
        rw [beq_self_eq_true]
        rfl
      · rw [beq_false_of_ne hk]
        exact ih hrest ((List.mem_cons.mp hph).resolve_left hk)

/-- **`moves_eq_candidate`** — the entries that move are those in packs below the threshold. -/
theorem moves_eq_candidate {es : List IndexEntry} {sizes : List (Hash × Nat)}
    {bufs : List (Hash × Bytes)} (hsizes : packSizes r es [] = .ok sizes)
    (hbufs : readPacks r ((sizes.filter fun s => s.2 < consolidationThreshold).map Prod.fst) = .ok bufs)
    {e : IndexEntry} (he : e ∈ es) : moves bufs e = candidate r e := by
  cases e with
  | inline e => rfl
  | standalone e => rfl
  | pack pe =>
      obtain ⟨n, hn⟩ := (packSizes_covers hsizes).2 pe he
      obtain ⟨b, hb, rfl⟩ := packSizes_spec (List.forall_mem_nil _) hsizes _ hn
      have hsize : r.size pe.packHash = .ok b.length :=
        bind_eq_ok.mpr ⟨b, Remote.openRead_eq_ok.mpr hb, rfl⟩
      show (bufs.lookup pe.packHash).isSome = okAnd (r.size pe.packHash) _
      rw [hsize]
      show _ = decide (b.length < consolidationThreshold)
      rw [Bool.eq_iff_iff, decide_eq_true_iff]
      constructor
      · intro hsome
        obtain ⟨pack, hl⟩ := Option.isSome_iff_exists.mp hsome
        obtain ⟨hobj, hlt⟩ := readPacks_small hsizes hbufs _ pack hl
        rw [hb] at hobj
        obtain rfl := Option.some.inj hobj
        exact hlt
      · intro hlt
        apply readPacks_covers hbufs
        exact List.mem_map.mpr ⟨_, List.mem_filter.mpr ⟨hn, decide_eq_true hlt⟩, rfl⟩

end Packs

/-! ## The call -/

/-- What `out` on `r'` is to the entries `es` on `r`: one entry for each hash, the same one unless it
lies in a small pack, and then one that names the same bytes in a new pack. -/
structure Consolidated (E : Env) (r r' : Remote) (es out : List IndexEntry) : Prop where
  hashes : (out.map IndexEntry.hash).Perm (es.map IndexEntry.hash)
  kept : ∀ e ∈ es, candidate r e = false → e ∈ out
  moved : ∀ pe, .pack pe ∈ es → candidate r (.pack pe) = true →
    ∃ pe' body, .pack pe' ∈ out ∧ pe'.hash = pe.hash ∧
      pe'.packHash = E.sha256 (packMagic ++ body) ∧
      r'.objects pe'.packHash = some (packMagic ++ body) ∧ body.length < UInt32.size ∧
      ∃ b pc pc', Reader.fetchPackSlice r (fun _ => none) pe.packHash pe.offset pe.length = .ok (b, pc) ∧
        Reader.fetchPackSlice r' (fun _ => none) pe'.packHash pe'.offset pe'.length = .ok (b, pc')

section Call

variable {E : Env} {ch : Choices} {r r' : Remote} {es out : List IndexEntry}

theorem eq_of_hash (hnd : (es.map IndexEntry.hash).Nodup) {e e' : IndexEntry} (he : e ∈ es)
    (he' : e' ∈ es) (h : e.hash = e'.hash) : e = e' :=
  List.inj_on_of_nodup_map hnd he he' h

/-- The hashes are those of `es`, as far as `Carries` says. -/
theorem Carries.hashes_perm (hnd : (es.map IndexEntry.hash).Nodup) (hc : Carries r es r' out) :
    (out.map IndexEntry.hash).Perm (es.map IndexEntry.hash) := by
  rw [List.perm_ext_iff_of_nodup hc.nodup hnd]
  intro h
  constructor
  · intro hh
    obtain ⟨e', he', rfl⟩ := List.mem_map.mp hh
    obtain ⟨e, he, heq, -⟩ := hc.from_entries e' he'
    exact List.mem_map.mpr ⟨e, he, heq⟩
  · intro hh
    obtain ⟨e, he, rfl⟩ := List.mem_map.mp hh
    obtain ⟨e', he', heq⟩ := hc.covers e he
    exact List.mem_map.mpr ⟨e', he', heq⟩

/-- What the loop has collected: the entries that stay, and a slice for every other one. -/
structure Repacked (r : Remote) (es : List IndexEntry) (s : Repack) : Prop where
  kept : ∀ e ∈ es, candidate r e = false → s.updated.find e.hash = some e
  only : ∀ h e, s.updated.find h = some e → e ∈ es ∧ candidate r e = false
  pending : ∀ h, (∃ pk ∈ s.packs, ∃ p ∈ pk.2, p.1 = h) ↔ ∃ e ∈ es, candidate r e = true ∧ e.hash = h
  within : ∀ pe, .pack pe ∈ es → candidate r (.pack pe) = true → ∃ pack,
    r.objects pe.packHash = some pack ∧
      packBodyOffset + pe.offset.toNat + pe.length.toNat ≤ pack.length
  small : ∀ pk ∈ s.packs, pk.1.length < UInt32.size

/-- **`repacked_of_repack`** — the loop over entries with different hashes. -/
theorem repacked_of_repack (hnd : (es.map IndexEntry.hash).Nodup) {sizes : List (Hash × Nat)}
    {bufs : List (Hash × Bytes)} {s : Repack} (hsizes : packSizes r es [] = .ok sizes)
    (hbufs : readPacks r ((sizes.filter fun s => s.2 < consolidationThreshold).map Prod.fst) = .ok bufs)
    (hrepack : repack bufs es ⟨[], [], [], IndexFile.new⟩ = .ok s) : Repacked r es s := by
  have hread := readPacks_small hsizes hbufs
  have hsame : ∀ {e}, e ∈ es → moves bufs e = candidate r e := moves_eq_candidate hsizes hbufs
  have hstart : Repack.Small ⟨[], [], [], IndexFile.new⟩ := by
    refine ⟨by decide, fun pk hpk => ?_⟩
    obtain rfl := List.mem_singleton.mp hpk
    decide
  obtain ⟨hsmall, hupdated, hmoved, hrange⟩ :=
    repack_spec (fun ph pack hl => (hread ph pack hl).2) hstart hrepack
  constructor
  · intro e he hstay
    rw [hupdated]
    refine IndexFile.find_pushAll_of_nodup ?_ ?_
    · exact hnd.sublist ((List.filter_sublist).map _)
    · exact List.mem_filter.mpr ⟨he, by rw [hsame he, hstay]; rfl⟩
  · intro h x hx
    rw [hupdated] at hx
    rcases IndexFile.mem_of_find_pushAll hx with hmem | hnew
    · obtain ⟨hmem, hstay⟩ := List.mem_filter.mp hmem
      rw [← hsame hmem]
      exact ⟨hmem, by simpa using hstay⟩
    · cases hnew
  · intro h
    have hslices : (∃ pk ∈ s.packs, ∃ p ∈ pk.2, p.1 = h) ↔ h ∈ s.moved := by
      simp only [Repack.moved, List.mem_map, List.mem_flatMap]
      constructor
      · rintro ⟨pk, hpk, p, hp, heq⟩
        exact ⟨p, ⟨pk, hpk, hp⟩, heq⟩
      · rintro ⟨p, ⟨pk, hpk, hp⟩, heq⟩
        exact ⟨pk, hpk, p, hp, heq⟩
    rw [hslices, hmoved]
    show h ∈ [] ++ _ ↔ _
    rw [List.nil_append, List.mem_map]
    constructor
    · rintro ⟨e, he, heq⟩
      obtain ⟨hmem, hgo⟩ := List.mem_filter.mp he
      exact ⟨e, hmem, (hsame hmem).symm.trans hgo, heq⟩
    · rintro ⟨e, he, hcand, heq⟩
      exact ⟨e, List.mem_filter.mpr ⟨he, (hsame he).trans hcand⟩, heq⟩
  · intro pe hpe hcand
    obtain ⟨pack, hl⟩ := Option.isSome_iff_exists.mp ((hsame hpe).trans hcand)
    exact ⟨pack, (hread _ pack hl).1, hrange pe hpe pack hl⟩
  · exact hsmall.2

/-- Without a pack below the threshold no entry is a candidate. -/
theorem candidate_eq_false {sizes : List (Hash × Nat)} (hsizes : packSizes r es [] = .ok sizes)
    (hnone : ((sizes.filter fun s => s.2 < consolidationThreshold).map Prod.fst).isEmpty = true)
    {e : IndexEntry} (he : e ∈ es) : candidate r e = false := by
  have hnil := List.map_eq_nil_iff.mp (List.isEmpty_iff.mp hnone)
  have hbufs : readPacks r ((sizes.filter fun s => s.2 < consolidationThreshold).map Prod.fst) =
      .ok [] := by
    rw [hnil]
    rfl
  rw [← moves_eq_candidate hsizes hbufs he]
  cases e <;> rfl

/-- A call that succeeds had no entry that leaves its pack. -/
theorem consolidatePackFiles_within (hnd : (es.map IndexEntry.hash).Nodup)
    (hs : consolidatePackFiles E ch r es = .ok (out, r')) {pe : PackEntry} (hpe : .pack pe ∈ es)
    (hcand : candidate r (.pack pe) = true) : ¬ OutOfRange r pe := by
  obtain ⟨sizes, hsizes, hrest⟩ := bind_eq_ok.mp hs
  simp only at hrest
  split_ifs at hrest with hnone
  · rw [candidate_eq_false hsizes hnone hpe] at hcand
    cases hcand
  obtain ⟨bufs, hbufs, hrest⟩ := bind_eq_ok.mp hrest
  obtain ⟨s, hrepack, -⟩ := bind_eq_ok.mp hrest
  rintro ⟨pack, hobj, hout⟩
  obtain ⟨pack', hobj', hle⟩ := (repacked_of_repack hnd hsizes hbufs hrepack).within pe hpe hcand
  rw [hobj] at hobj'
  obtain rfl := Option.some.inj hobj'
  omega

/-- **`consolidatePackFiles_keeps`** — a call that succeeds keeps what every entry names. -/
theorem consolidatePackFiles_keeps (hnd : (es.map IndexEntry.hash).Nodup)
    (hs : consolidatePackFiles E ch r es = .ok (out, r')) (hon : r'.Honest) :
    Consolidated E r r' es out := by
  have hcarries := consolidatePackFiles_spec hnd hs
  obtain ⟨sizes, hsizes, hrest⟩ := bind_eq_ok.mp hs
  simp only at hrest
  split_ifs at hrest with hnone
  · cases hrest
    refine ⟨.refl _, fun e he _ => he, fun pe hpe hcand => ?_⟩
    rw [candidate_eq_false hsizes hnone hpe] at hcand
    cases hcand
  obtain ⟨bufs, hbufs, hrest⟩ := bind_eq_ok.mp hrest
  obtain ⟨s, hrepack, hrest⟩ := bind_eq_ok.mp hrest
  cases hrest
  have hloop := repacked_of_repack hnd hsizes hbufs hrepack
  have hinv := RepackInv.run (readPacks_small hsizes hbufs) (RepackInv.start r) hrepack
  rw [List.append_nil] at hinv
  have hwritten : ∀ pk {p}, p ∈ pk.2 → (pk ∈ _ ↔ pk ∈ s.packs) := fun pk p hp => s.mem_completed hp
  generalize (if s.newPackEntries.isEmpty then s.completedPacks
    else s.completedPacks ++ [(s.newBuf, s.newPackEntries)]) = completed at hwritten hon hcarries ⊢
  obtain ⟨-, hfind, hsome⟩ := @writePacks_spec E completed r s.updated
  have hperm := ch.updatedOrder_perm (writePacks E completed r s.updated).2.entries
  have hmem : ∀ {e}, (writePacks E completed r s.updated).2.find e.hash = some e →
      e ∈ ch.updatedOrder (writePacks E completed r s.updated).2.entries := fun hf =>
    hperm.mem_iff.mpr (IndexFile.find_eq_some_iff.mp hf).1
  refine ⟨hcarries.hashes_perm hnd, ?_, ?_⟩
  · intro e he hstay
    apply hmem
    have hthere := hloop.kept e he hstay
    obtain ⟨x, hx⟩ := Option.isSome_iff_exists.mp (hsome e.hash (.inl (by rw [hthere]; rfl)))
    rcases hfind e.hash x hx with hold | ⟨pk, hpk, p, hp, heq, -⟩
    · rw [hx, ← hold, hthere]
    · -- a slice of its hash would make it a candidate
      obtain ⟨e', he', hcand, heq'⟩ :=
        (hloop.pending e.hash).mp ⟨pk, (hwritten pk hp).mp hpk, p, hp, heq⟩
      obtain rfl := eq_of_hash hnd he' he heq'
      rw [hstay] at hcand
      cases hcand
  · intro pe hpe hcand
    obtain ⟨pk, hpk, p, hp, heq⟩ := (hloop.pending pe.hash).mpr ⟨_, hpe, hcand, rfl⟩
    obtain ⟨x, hx⟩ := Option.isSome_iff_exists.mp
      (hsome pe.hash (.inr ⟨pk, (hwritten pk hp).mpr hpk, p, hp, heq⟩))
    rcases hfind pe.hash x hx with hold | ⟨pk, hpk, p, hp, heq, rfl, r₁, hle⟩
    · obtain ⟨hxmem, hstay⟩ := hloop.only _ x hold
      obtain rfl := eq_of_hash hnd hxmem hpe (IndexFile.hash_of_find hold)
      rw [hstay] at hcand
      cases hcand
    obtain ⟨e, he, hhash, hend, hslice⟩ := hinv.packed pk ((hwritten pk hp).mp hpk) p hp
    obtain rfl := eq_of_hash hnd (List.mem_reverse.mp he) hpe (hhash.symm.trans heq)
    obtain ⟨pack, hobj, hroom⟩ := hloop.within pe hpe hcand
    have hold : packSlice r pe.packHash pe.offset pe.length =
        some (Bytes.slice (packBodyOffset + pe.offset.toNat) pe.length.toNat pack) := by
      rw [packSlice, hobj]
      exact if_pos hroom
    have hnew := @SessionInv.backs_pack E r₁ pk.1 pe.hash _ _ _ hend (hslice _ hold) _ hle hon
    obtain ⟨pc, hfetch⟩ :=
      @Reader.fetchPackSlice_complete r (fun _ => none) (fun _ _ h => by cases h) _ _ _ _ hold
    obtain ⟨pc', hfetch'⟩ :=
      @Reader.fetchPackSlice_complete _ (fun _ => none) (fun _ _ h => by cases h) _ _ _ _ hnew
    exact ⟨⟨pe.hash, E.sha256 (packMagic ++ pk.1), p.2.1, p.2.2⟩, pk.1, hmem hx, rfl, rfl, hon.objects_of_le hle (Remote.log_writeFrom ..),
      hloop.small pk ((hwritten pk hp).mp hpk), _, pc, pc', hfetch, hfetch'⟩

/-- **`consolidatePackFilesOn_spec`** — a successful call keeps every entry and its bytes; an entry that
leaves its pack stops the call with the remote as it was. -/
theorem consolidatePackFilesOn_spec (E : Env) (ch : Choices) (r : Remote) {es : List IndexEntry}
    (hnd : (es.map IndexEntry.hash).Nodup) :
    (∀ out, (consolidatePackFilesOn E ch r es).1 = .ok out →
      (consolidatePackFilesOn E ch r es).2.Honest →
        Consolidated E r (consolidatePackFilesOn E ch r es).2 es out) ∧
    ((∃ pe, .pack pe ∈ es ∧ candidate r (.pack pe) = true ∧ OutOfRange r pe) →
      ∃ e, consolidatePackFilesOn E ch r es = (.error e, r)) := by
  rw [consolidatePackFilesOn_eq]
  cases hs : consolidatePackFiles E ch r es with
  | error err => exact ⟨fun out hok => (nomatch hok), fun _ => ⟨err, rfl⟩⟩
  | ok result =>
      obtain ⟨out', r'⟩ := result
      constructor
      · intro out hok hon
        obtain rfl : out' = out := Except.ok.inj hok
        exact consolidatePackFiles_keeps hnd hs hon
      · rintro ⟨pe, hpe, hcand, hrange⟩
        exact absurd hrange (consolidatePackFiles_within hnd hs hpe hcand)

end Call

/-! ## Two entries of one pack -/

def smallPack : Bytes := packMagic ++ [10, 11, 12, 13]

def smallRemote : Remote := Remote.ofObjects [(5, smallPack)] none

/-- Two slices that overlap, and an entry that stays. -/
def smallEntries : List IndexEntry :=
  [.pack ⟨1, 5, 0, 3⟩, .standalone ⟨2⟩, .pack ⟨3, 5, 2, 2⟩]

theorem smallEntries_consolidated :
    ∃ out, (consolidatePackFilesOn sampleEnv (sampleChoices fun _ => true) smallRemote
        smallEntries).1 = .ok out ∧
      Consolidated sampleEnv smallRemote
        (consolidatePackFilesOn sampleEnv (sampleChoices fun _ => true) smallRemote smallEntries).2
        smallEntries out := by
  have hnd : (smallEntries.map IndexEntry.hash).Nodup := by decide
  have hrun : okAnd (consolidatePackFilesOn sampleEnv (sampleChoices fun _ => true) smallRemote
      smallEntries).1 (fun _ => decide (consolidatePackFilesOn sampleEnv (sampleChoices fun _ => true)
        smallRemote smallEntries).2.Honest) = true := by
    decide +kernel
  obtain ⟨out, hok, hon⟩ := okAnd_eq_true.mp hrun
  exact ⟨out, hok, (consolidatePackFilesOn_spec sampleEnv (sampleChoices fun _ => true) smallRemote
    hnd).1 out hok (of_decide_eq_true hon)⟩

end Omemfs.Pack.Compact
