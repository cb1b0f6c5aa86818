/-
# Xv6.Fs.Files — what a write makes of the contents of files (`writei` of `kernel/fs.c`, `filewrite` of
`kernel/file.c`).

The content of an inode is the bytes below its size.  A turn of the loop of `writei` writes the block that
`bmap` answered, and every other block of the file is as it was, because `bmap` leaves data alone and no two
indices have the same block.  What the loop leaves is the old content with the data laid over it (`overlay`),
and the other files have other blocks.
-/
import Xv6.Fs.Growth
import Xv6.Fs.Reading

namespace Xv6.Fs

open Function List
open Kernel (Cid Container BSIZE neg64)
open Lib (bind_eq_ok)

/-! ## Contents -/

/-- The bytes with `new` laid over them at `off`. -/
def overlay (old : List (BitVec 8)) (off : Nat) (new : List (BitVec 8)) : List (BitVec 8) :=
  old.take off ++ new ++ old.drop (off + new.length)

/-- Byte `p` of a file.  A block that is not there has no bytes. -/
def DiskInode.fileByte (x : DiskInode) (d : Disk) (p : Nat) : BitVec 8 :=
  if x.addrAt d (.ofBlock (p / BSIZE)) = 0 then 0 else x.byte d p

def DiskInode.content (x : DiskInode) (d : Disk) : List (BitVec 8) := (List.range x.size.toNat).map (x.fileByte d)

def contentOf (sb : Superblock) (d : Disk) (i : Nat) : Option (List (BitVec 8)) :=
  (inodesOf sb d i).map (·.content d)

/-- A buffer with these bytes, all of which can be copied. -/
def source (data : List (BitVec 8)) : Nat → Option (BitVec 8) := fun k => data[k]?

section Lists

variable {old new : List (BitVec 8)} {off : Nat}

theorem length_overlay (h : off ≤ old.length) : (overlay old off new).length = max old.length (off + new.length) := by
  unfold overlay
  rw [length_append, length_append, length_take, length_drop]
  omega

theorem getD_overlay (h : off ≤ old.length) (p : Nat) :
    (overlay old off new).getD p 0 = if off ≤ p ∧ p < off + new.length then new.getD (p - off) 0 else old.getD p 0 := by
  have htake : (old.take off).length = off := by rw [length_take]; omega
  unfold overlay
  by_cases hlow : p < off
  · rw [if_neg (by omega), append_assoc, getD_append _ _ _ _ (by omega), getD_eq_getElem?_getD,
      getD_eq_getElem?_getD, getElem?_take_of_lt hlow]
  by_cases hin : p < off + new.length
  · rw [if_pos ⟨by omega, hin⟩, append_assoc, getD_append_right _ _ _ _ (by omega), htake, getD_append _ _ _ _ (by omega)]
  · rw [if_neg (by omega), getD_append_right _ _ _ _ (by rw [length_append]; omega), length_append,
      htake, getD_eq_getElem?_getD, getD_eq_getElem?_getD, getElem?_drop]
    congr 2
    omega

theorem length_content (x : DiskInode) (d : Disk) : (x.content d).length = x.size.toNat := by
  unfold DiskInode.content
  rw [length_map, length_range]

theorem getD_content {x : DiskInode} {d : Disk} {p : Nat} (hp : p < x.size.toNat) :
    (x.content d).getD p 0 = x.fileByte d p := by
  rw [getD_eq_getElem _ _ (by rwa [length_content])]
  unfold DiskInode.content
  rw [getElem_map, getElem_range]

end Lists

/-! ## One turn -/

section Turn

variable {sb : Superblock} {tab : Nat → Option DiskInode} {d d' : Disk} {i p : Nat} {x x' : DiskInode}
variable {a : BlockNo} {bn : Nat}

def DiskInode.Backs (x : DiskInode) (d : Disk) (p : Nat) : Prop :=
  p / BSIZE < MAXFILE ∧ x.addrAt d (.ofBlock (p / BSIZE)) ≠ 0

theorem DiskInode.MappedTo.backs {n : Nat} (h : x.MappedTo d n) (hp : p < n) : x.Backs d p := by
  apply h (p / BSIZE)
  show p / 1024 * 1024 < n
  omega

theorem DiskInode.mappedTo_of_backs {n : Nat} (h : ∀ q, q < n → x.Backs d q) : x.MappedTo d n := by
  intro bn hbn
  have hback := h (bn * 1024) hbn
  have hdiv : bn * 1024 / BSIZE = bn := Nat.mul_div_cancel bn (by decide)
  unfold DiskInode.Backs at hback
  rwa [hdiv] at hback

theorem Grows.backs (h : Grows sb tab i x x' d d') (hp : x.Backs d p) : x'.Backs d' p :=
  ⟨hp.1, by rw [h.kept _ hp.2]; exact hp.2⟩

theorem Got.byte (h : Got sb tab i x x' d d' bn a) (hx : tab i = some x) (hp : x.Backs d p) :
    x'.byte d' p = x.byte d p := by
  unfold DiskInode.byte
  rw [h.grows.kept _ hp.2, h.frame (i, .ofBlock (p / BSIZE)) _ ⟨hp.2, x, hx, rfl⟩]
  exact fun hplace => Index.ofBlock_ne _ (congrArg Prod.snd hplace)

/-- **A copy into block `bn` of the file, byte by byte.** -/
theorem write_byte (hsound : Sound sb (names tab d) d) (hx : tab i = some x) (hbn : bn < MAXFILE) (hne : a ≠ 0)
    (ha : x.addrAt d (.ofBlock bn) = a) {o m : Nat} (hm : o + m ≤ BSIZE) (f : Nat → BitVec 8)
    (hp : x.Backs d p) : x.byte (update d a (overwrite (d a) o m f)) p =
      if bn * BSIZE + o ≤ p ∧ p < bn * BSIZE + o + m then f (p - (bn * BSIZE + o)) else x.byte d p := by
  have hname : names tab d (i, .ofBlock bn) a := ⟨hne, x, hx, ha⟩
  have hB : BSIZE = 1024 := rfl
  unfold DiskInode.byte
  rw [hsound.addrAt_write hname hx]
  by_cases hblk : p / BSIZE = bn
  · have hlt : p % BSIZE < 1024 := Nat.mod_lt p (by decide)
    rw [hblk, ha, update_self, byteAt_overwrite _ _ _ _ hlt]
    rw [hB] at hblk hm ⊢
    by_cases hin : o ≤ p % 1024 ∧ p % 1024 < o + m
    · rw [if_pos hin, if_pos (by omega)]
      congr 1
      omega
    · rw [if_neg hin, if_neg (by omega)]
  · have hother : x.addrAt d (.ofBlock (p / BSIZE)) ≠ a := by
      intro heq
      have hplace := hsound.owns.inj (⟨hp.2, x, hx, rfl⟩ : names tab d (i, .ofBlock (p / BSIZE)) _) (heq ▸ hname)
      exact hblk (Index.ofBlock_inj hp.1 hbn (congrArg Prod.snd hplace))
    rw [update_of_ne hother, if_neg]
    rw [hB] at hblk hm ⊢
    omega

/-- **What `bmap` and a copy into the block do**, byte by byte. -/
theorem Got.copy_byte {off m : Nat} (h : Got sb tab i x x' d d' (off / BSIZE) a) (hx : tab i = some x)
    (hbn : off / BSIZE < MAXFILE) (hm : off % BSIZE + m ≤ BSIZE) (f : Nat → BitVec 8)
    (hp : x.Backs d p ∨ (off ≤ p ∧ p < off + m)) :
    x'.Backs (update d' a (overwrite (d' a) (off % BSIZE) m f)) p ∧
      x'.byte (update d' a (overwrite (d' a) (off % BSIZE) m f)) p =
        if off ≤ p ∧ p < off + m then f (p - off) else x.byte d p := by
  have hoff : off / BSIZE * BSIZE + off % BSIZE = off := Nat.div_add_mod' off BSIZE
  have hback : x'.Backs d' p := by
    rcases hp with hold | hin
    · exact h.grows.backs hold
    · have hblk : p / BSIZE = off / BSIZE := by
        have hB : BSIZE = 1024 := rfl
        rw [hB] at hm hoff ⊢
        omega
      exact ⟨hblk ▸ hbn, by rw [hblk, h.addr]; exact h.ne⟩
  refine ⟨(h.write _).backs hback, ?_⟩
  rw [write_byte h.grows.sound (update_self i (some x') tab) hbn h.ne h.addr hm f hback, hoff]
  by_cases hin : off ≤ p ∧ p < off + m
  · rw [if_pos hin, if_pos hin]
  · rw [if_neg hin, if_neg hin]
    exact h.byte hx (hp.resolve_right hin)

end Turn

/-! ## The loop -/

section Loop

variable {sb : Superblock} {c : Cid} {i tot n : Nat} {src : Nat → Option (BitVec 8)}

theorem reach_of_isSome {m : Nat} (h : ∀ k, k < m → (src (tot + k)).isSome) :
    reach (fun k => (src k).isSome) tot m = m := by
  have hall : (range m).takeWhile (fun k => (src (tot + k)).isSome) = range m :=
    takeWhile_eq_self_iff.mpr fun k hk => h k (mem_range.mp hk)
  rw [reach, hall, length_range]

def turnLen (n tot off : Nat) : Nat := min (n - tot) (BSIZE - off % BSIZE)

def turnBlock (src : Nat → Option (BitVec 8)) (n tot off : Nat) (blk : Block) : Block :=
  overwrite blk (off % BSIZE) (turnLen n tot off) fun k => (src (tot + k)).getD 0

def copied (src : Nat → Option (BitVec 8)) (n tot off : Nat) (a : BlockNo) (st : Store) : Store :=
  { st with disk := update st.disk a (turnBlock src n tot off (st.disk a)) }

theorem turnLen_le (n tot off : Nat) : turnLen n tot off ≤ n - tot := Nat.min_le_left ..

theorem turnLen_block (n tot off : Nat) : off % BSIZE + turnLen n tot off ≤ BSIZE := by
  have hmod : off % BSIZE < BSIZE := Nat.mod_lt _ (by decide)
  unfold turnLen
  omega

theorem turnLen_pos (hlt : tot < n) (off : Nat) : 0 < turnLen n tot off := by
  have hmod : off % BSIZE < BSIZE := Nat.mod_lt _ (by decide)
  unfold turnLen
  omega

theorem writeLoop_turn (hsrc : ∀ k, k < n → (src k).isSome)
    (hlt : tot < n) (fuel off : Nat) (x : DiskInode) (st : Store) : writeLoop sb c src n (fuel + 1) tot off x st =
      bmap sb c x (off / BSIZE) st >>= fun r => writeLoop sb c src n fuel (tot + turnLen n tot off) (off + turnLen n tot off)
        r.2.1 (copied src n tot off r.1 r.2.2) := by
  have hreach : reach (fun k => (src k).isSome) tot (turnLen n tot off) = turnLen n tot off := by
    apply reach_of_isSome
    intro k hk
    exact hsrc _ (by have := turnLen_le n tot off; omega)
  unfold copied turnBlock
  unfold turnLen at hreach ⊢
  rw [writeLoop, if_pos hlt]
  simp only [hreach, if_neg (Nat.lt_irrefl _)]

theorem writeLoop_done (hlt : ¬ tot < n) (fuel off : Nat) (x : DiskInode)
    (st : Store) : writeLoop sb c src n fuel tot off x st = .ok (off, x, st) := by
  cases fuel with
  | zero => rfl
  | succ fuel => rw [writeLoop, if_neg hlt]

theorem writeLoop_turn_ok (hsrc : ∀ k, k < n → (src k).isSome) (hlt : tot < n) {fuel off off' : Nat} {x x' : DiskInode}
    {st st' : Store} (h : writeLoop sb c src n (fuel + 1) tot off x st = .ok (off', x', st')) (hs : st'.Sated) :
    ∃ a x1 st1, bmap sb c x (off / BSIZE) st = .ok (a, x1, st1) ∧ st1.Sated ∧
      writeLoop sb c src n fuel (tot + turnLen n tot off) (off + turnLen n tot off) x1 (copied src n tot off a st1) =
        .ok (off', x', st') := by
  rw [writeLoop_turn hsrc hlt] at h
  obtain ⟨⟨a, x1, st1⟩, hb, h⟩ := bind_eq_ok.mp h
  exact ⟨a, x1, st1, hb, (writeLoop_grows (fun _ => none) 0 src n fuel h hs).1, h⟩

theorem Got.turn {tab : Nat → Option DiskInode} {x x' : DiskInode} {d : Disk} {st : Store} {a : BlockNo} {bn : Nat}
    (h : Got sb tab i x x' d st.disk bn a) (src : Nat → Option (BitVec 8)) (n tot off : Nat) :
    Grows sb tab i x x' d (copied src n tot off a st).disk :=
  h.grows.trans (h.write _)

theorem writeLoop_bytes (hsrc : ∀ k, k < n → (src k).isSome) (fuel : Nat) :
    ∀ {tab : Nat → Option DiskInode} {tot off off' : Nat} {x x' : DiskInode} {st st' : Store},
    writeLoop sb c src n fuel tot off x st = .ok (off', x', st') → st'.Sated → n - tot ≤ fuel → tot ≤ n →
    tab i = some x → Sound sb (names tab st.disk) st.disk →
    off' = off + (n - tot) ∧
      ∀ p, x.Backs st.disk p ∨ (off ≤ p ∧ p < off + (n - tot)) →
        x'.Backs st'.disk p ∧ x'.byte st'.disk p =
          if off ≤ p ∧ p < off + (n - tot) then (src (tot + (p - off))).getD 0 else x.byte st.disk p := by
  induction fuel using Nat.strongRecOn with
  | ind fuel ih =>
    intro tab tot off off' x x' st st' h hs hfuel htot hx hsound
    by_cases hlt : tot < n
    swap
    · rw [writeLoop_done hlt] at h
      cases h
      have hzero : n - tot = 0 := by omega
      rw [hzero, Nat.add_zero]
      refine ⟨rfl, fun p hp => ?_⟩
      have hback : x.Backs st.disk p := hp.resolve_right (by omega)
      exact ⟨hback, by rw [if_neg (by omega)]⟩
    obtain ⟨fuel, rfl⟩ : ∃ k, fuel = k + 1 := ⟨fuel - 1, by omega⟩
    obtain ⟨a, x1, st1, hb, hs1, h⟩ := writeLoop_turn_ok hsrc hlt h hs
    have hgot := bmap_got hb hs1 hx hsound
    have hturn := hgot.turn src n tot off
    have hle := turnLen_le n tot off
    have hpos := turnLen_pos hlt off
    have hblkend := turnLen_block n tot off
    unfold copied turnBlock at h hturn
    generalize turnLen n tot off = m at h hturn hle hpos hblkend
    obtain ⟨hoff', hbytes⟩ := ih fuel (Nat.lt_succ_self fuel) h hs (by omega) (by omega) (update_self i (some x1) tab)
      hturn.sound
    refine ⟨by omega, fun p hp => ?_⟩
    by_cases hlater : off + m ≤ p ∧ p < off + m + (n - (tot + m))
    · obtain ⟨hback, hval⟩ := hbytes p (.inr hlater)
      refine ⟨hback, ?_⟩
      rw [hval, if_pos hlater, if_pos (by omega)]
      congr 2
      omega
    obtain ⟨hback1, hval1⟩ := hgot.copy_byte hx (bmap_lt hb) hblkend (fun k => (src (tot + k)).getD 0)
      (hp.imp_right fun hin => show off ≤ p ∧ p < off + m by omega)
    obtain ⟨hback, hval⟩ := hbytes p (.inl hback1)
    refine ⟨hback, ?_⟩
    rw [hval, if_neg hlater, hval1]
    by_cases hnow : off ≤ p ∧ p < off + m
    · rw [if_pos hnow, if_pos (by omega)]
    · rw [if_neg hnow, if_neg (by omega)]

end Loop

/-! ## `writei` -/

/-- `data` was written into inode `i` at `off`: the inode went from
`x` to `x'` and has the new content, and the other inodes are as they were. -/
structure Rewrites (sb : Superblock) (i : Nat) (x x' : DiskInode) (off : Nat) (data : List (BitVec 8)) (d d' : Disk) :
    Prop where
  sound : Sound sb (names (inodesOf sb d') d') d'
  self : inodesOf sb d' i = some x'
  mapped : x'.MappedTo d' x'.size.toNat
  content : x'.content d' = overlay (x.content d) off data
  others : ∀ j, j ≠ i → inodesOf sb d' j = inodesOf sb d j
  contents : ∀ j, j ≠ i → contentOf sb d' j = contentOf sb d j

section Write

variable {sb : Superblock} {c : Cid} {i off : Nat} {x x' x'' : DiskInode} {d d' : Disk} {data : List (BitVec 8)}

theorem Rewrites.size (h : Rewrites sb i x x' off data d d') (hoff : off ≤ x.size.toNat) :
    x'.size.toNat = max x.size.toNat (off + data.length) := by
  rw [← length_content x' d', h.content, length_overlay (by rwa [length_content]), length_content]

theorem Rewrites.nothing (hsound : Sound sb (names (inodesOf sb d) d) d) (hx : inodesOf sb d i = some x)
    (hmapped : x.MappedTo d x.size.toNat) (off : Nat) : Rewrites sb i x x off [] d d where
  sound := hsound
  self := hx
  mapped := hmapped
  content := by
    unfold overlay
    rw [append_nil, length_nil, Nat.add_zero, take_append_drop]
  others _ _ := rfl
  contents _ _ := rfl

theorem content_congr {y : DiskInode} (haddr : ∀ ix, y.addrAt d' ix = y.addrAt d ix)
    (hblock : ∀ ix, y.addrAt d ix ≠ 0 → d' (y.addrAt d ix) = d (y.addrAt d ix)) : y.content d' = y.content d := by
  unfold DiskInode.content DiskInode.fileByte DiskInode.byte
  apply map_congr_left
  intro p _
  rw [haddr]
  by_cases hzero : y.addrAt d (.ofBlock (p / BSIZE)) = 0
  · rw [if_pos hzero, if_pos hzero]
  · rw [if_neg hzero, if_neg hzero, hblock _ hzero]

theorem DiskInode.Backs.fileByte {p : Nat} (h : x.Backs d p) : x.fileByte d p = x.byte d p := if_neg h.2

theorem Grows.written (h : Grows sb (inodesOf sb d) i x x' d d') (hx : inodesOf sb d i = some x)
    (haddrs : x''.addrs = x'.addrs) (htype : x''.type = x.type) :
    inodesOf sb (writeInode sb i x'' d') = update (inodesOf sb d) i (some x'') ∧
      Sound sb (names (inodesOf sb (writeInode sb i x'' d')) (writeInode sb i x'' d')) (writeInode sb i x'' d') := by
  obtain ⟨hi, ht, -⟩ := inodesOf_eq_some.mp hx
  rw [← htype] at ht
  constructor
  · rw [inodesOf_writeInode hi, if_neg ht, h.inodes.inodesOf]
  · apply sound_writeInode hi
    rw [if_neg ht, h.inodes.inodesOf]
    exact h.sound_of_addrs haddrs

/-- **The end of `writei`**: what the loop has left is written back. -/
theorem Grows.rewrites (h : Grows sb (inodesOf sb d) i x x' d d') (hsound : Sound sb (names (inodesOf sb d) d) d)
    (hx : inodesOf sb d i = some x) (haddrs : x''.addrs = x'.addrs) (htype : x''.type = x.type)
    (hmapped : x'.MappedTo d' x''.size.toNat)
    (hbytes : ∀ p, p < x''.size.toNat → x'.byte d' p = (overlay (x.content d) off data).getD p 0)
    (hlen : (overlay (x.content d) off data).length = x''.size.toNat) :
    Rewrites sb i x x'' off data d (writeInode sb i x'' d') := by
  obtain ⟨hi, -, -⟩ := inodesOf_eq_some.mp hx
  obtain ⟨htab, hwritten⟩ := h.written hx haddrs htype
  have hnew : Sound sb (names (update (inodesOf sb d) i (some x'')) d') d' := h.sound_of_addrs haddrs
  have hself : update (inodesOf sb d) i (some x'') i = some x'' := update_self ..
  have haddr : ∀ ix, x''.addrAt (writeInode sb i x'' d') ix = x'.addrAt d' ix := fun ix =>
    (addrAt_writeInode hi hnew hself ix).trans (DiskInode.addrAt_of_addrs haddrs d' ix)
  have hblock : ∀ p b, names (update (inodesOf sb d) i (some x'')) d' p b → writeInode sb i x'' d' b = d' b :=
    fun p b hname => writeInode_of_ne ((hnew.data hname).ne_iblock hi)
  refine ⟨hwritten, htab ▸ hself, fun bn hbn => ?_, ?_, fun j hj => ?_, fun j hj => ?_⟩
  · rw [haddr]
    exact hmapped bn hbn
  · apply ext_getElem
    · rw [length_content, hlen]
    intro p hp hp'
    rw [length_content] at hp
    have hback := hmapped.backs hp
    have hix : x'.addrAt d' (.ofBlock (p / BSIZE)) ≠ 0 := hback.2
    have hname : names (update (inodesOf sb d) i (some x'')) d' (i, .ofBlock (p / BSIZE)) (x'.addrAt d' (.ofBlock (p / BSIZE))) :=
      ⟨hix, x'', hself, DiskInode.addrAt_of_addrs haddrs d' _⟩
    rw [← getD_eq_getElem _ 0, ← getD_eq_getElem _ 0, getD_content hp, ← hbytes p hp]
    unfold DiskInode.fileByte DiskInode.byte
    rw [haddr, if_neg hix, hblock _ _ hname]
  · rw [htab, update_of_ne hj]
  unfold contentOf
  rw [htab, update_of_ne hj]
  cases hy : inodesOf sb d j with
  | none => rfl
  | some y =>
    have hy' : update (inodesOf sb d) i (some x'') j = some y := by rw [update_of_ne hj, hy]
    have hsame : ∀ ix, y.addrAt (writeInode sb i x'' d') ix = y.addrAt d ix := fun ix =>
      (addrAt_writeInode hi hnew hy' ix).trans (h.others j y hj hy ix)
    rw [Option.map_some, Option.map_some, content_congr hsame]
    intro ix hne
    have hname' : names (update (inodesOf sb d) i (some x'')) d' (j, ix) (y.addrAt d ix) :=
      ⟨hne, y, hy', h.others j y hj hy ix⟩
    rw [hblock _ _ hname']
    exact h.others_block hsound hx hj ⟨hne, y, hy, rfl⟩

theorem isSome_source {k : Nat} (hk : k < data.length) : (source data k).isSome := by
  unfold source
  rw [getElem?_eq_getElem hk]
  rfl

/-- The end of `writei`: the new size, and the inode goes to the disk. -/
def resized (x : DiskInode) (off : Nat) : DiskInode := if x.size.toNat < off then { x with size := BitVec.ofNat 32 off } else x

theorem resized_addrs (x : DiskInode) (off : Nat) : (resized x off).addrs = x.addrs := by
  unfold resized
  split <;> rfl

theorem resized_type (x : DiskInode) (off : Nat) : (resized x off).type = x.type := by
  unfold resized
  split <;> rfl

theorem resized_size (x : DiskInode) {off : Nat} (hoff : off ≤ 274432) : (resized x off).size.toNat = max x.size.toNat off := by
  unfold resized
  by_cases hgrow : x.size.toNat < off
  · rw [if_pos hgrow]
    dsimp only
    rw [BitVec.toNat_ofNat, Nat.mod_eq_of_lt (by omega)]
    omega
  · rw [if_neg hgrow]
    omega

theorem writei_eq {off n : BitVec 32} {src : Nat → Option (BitVec 8)} {st : Store} (hoff : off.toNat ≤ x.size.toNat)
    (hfit : off.toNat + n.toNat ≤ 274432) : writei sb c i x src off n st =
      writeLoop sb c src n.toNat n.toNat 0 off.toNat x st >>= fun r =>
        if 0 < n then .ok (n.toInt, resized r.2.1 r.1, iupdate sb i (resized r.2.1 r.1) r.2.2) else .ok (n.toInt, r.2) := by
  have hsum : (off + n).toNat = off.toNat + n.toNat := by
    rw [BitVec.toNat_add, Nat.mod_eq_of_lt (by omega)]
  unfold writei
  rw [if_neg (by rw [not_or, BitVec.lt_def, BitVec.lt_def, hsum]; omega),
    if_neg (by rw [hsum]; exact Nat.not_lt.mpr hfit)]
  rfl

/-- **What `writei` does** with a request that it does not refuse, when it was given the blocks it asked
for: nothing if there is no data; else the loop runs, and the inode that it has left goes to the disk. -/
theorem writei_cases {off n : BitVec 32} {r : Int} {st st' : Store}
    (h : writei sb c i x (source data) off n st = .ok (r, x', st')) (hs : st'.Sated)
    (hx : inodesOf sb st.disk i = some x) (hsound : Sound sb (names (inodesOf sb st.disk) st.disk) st.disk)
    (hoff : off.toNat ≤ x.size.toNat) (hn : n.toNat = data.length) (hfit : off.toNat + data.length ≤ 274432) :
    r = data.length ∧ ((data = [] ∧ x' = x ∧ st' = st) ∨
      ∃ off' x1 st1, writeLoop sb c (source data) data.length data.length 0 off.toNat x st = .ok (off', x1, st1) ∧ st1.Sated ∧
        Grows sb (inodesOf sb st.disk) i x x1 st.disk st1.disk ∧ x' = resized x1 off' ∧ st' = iupdate sb i x' st1) := by
  rw [writei_eq hoff (by rwa [hn]), hn, BitVec.toInt_eq_toNat_of_lt (by omega), hn] at h
  obtain ⟨⟨off', x1, st1⟩, hloop, h⟩ := bind_eq_ok.mp h
  dsimp only at h
  by_cases hpos : 0 < n
  · rw [if_pos hpos] at h
    cases h
    have hs1 : st1.Sated := hs
    have hgrows := (writeLoop_grows _ i _ _ _ hloop hs1).2 hx hsound
    exact ⟨rfl, .inr ⟨off', x1, st1, hloop, hs1, hgrows.1, rfl, rfl⟩⟩
  · have hzero : data = [] := by
      have hz : (0 : BitVec 32).toNat = 0 := rfl
      rw [BitVec.lt_def, hn, hz] at hpos
      exact eq_nil_of_length_eq_zero (by omega)
    subst hzero
    cases hloop
    rw [if_neg hpos] at h
    cases h
    exact ⟨rfl, .inl ⟨rfl, rfl, rfl⟩⟩

/-- **`writei` writes the data**, when it was given the blocks it asked for. -/
theorem writei_rewrites {off n : BitVec 32} {r : Int} {st st' : Store}
    (h : writei sb c i x (source data) off n st = .ok (r, x', st')) (hs : st'.Sated)
    (hsound : Sound sb (names (inodesOf sb st.disk) st.disk) st.disk) (hx : inodesOf sb st.disk i = some x)
    (hmapped : x.MappedTo st.disk x.size.toNat) (hoff : off.toNat ≤ x.size.toNat) (hn : n.toNat = data.length)
    (hfit : off.toNat + data.length ≤ 274432) :
    r = data.length ∧ Rewrites sb i x x' off.toNat data st.disk st'.disk := by
  obtain ⟨hr, ⟨rfl, rfl, rfl⟩ | ⟨off', x1, st1, hloop, hs1, hgrows, rfl, rfl⟩⟩ := writei_cases h hs hx hsound hoff hn hfit
  · exact ⟨hr, .nothing hsound hx hmapped _⟩
  have hsrc : ∀ k, k < data.length → (source data k).isSome := fun k hk => isSome_source hk
  obtain ⟨hoff', hbytes⟩ := writeLoop_bytes (i := i) hsrc data.length hloop hs1 (Nat.sub_le _ _) (Nat.zero_le _) hx hsound
  rw [Nat.sub_zero] at hoff' hbytes
  have hfields : x1.size = x.size ∧ x1.type = x.type := by rw [hgrows.fields]; exact ⟨rfl, rfl⟩
  have hsize : (resized x1 off').size.toNat = _ := resized_size x1 (by omega)
  rw [hfields.1, hoff'] at hsize
  rw [hoff']
  generalize hx'' : resized x1 (off.toNat + data.length) = x'' at hsize
  have haddrs : x''.addrs = x1.addrs := by rw [← hx'', resized_addrs]
  have htype : x''.type = x.type := by rw [← hx'', resized_type, hfields.2]
  have hin : ∀ p, p < x''.size.toNat → x.Backs st.disk p ∨ (off.toNat ≤ p ∧ p < off.toNat + data.length) := by
    intro p hp
    by_cases hold : p < x.size.toNat
    · exact .inl (hmapped.backs hold)
    · exact .inr (by omega)
  have hlen : x.size.toNat = (x.content st.disk).length := (length_content ..).symm
  refine ⟨hr, hgrows.rewrites hsound hx haddrs htype (DiskInode.mappedTo_of_backs fun p hp => ?_) (fun p hp => ?_) ?_⟩
  · exact (hbytes p (hin p hp)).1
  · rw [(hbytes p (hin p hp)).2, getD_overlay (by omega)]
    by_cases hnew : off.toNat ≤ p ∧ p < off.toNat + data.length
    · rw [if_pos hnew, if_pos hnew, Nat.zero_add, getD_eq_getElem?_getD]
      rfl
    · have hold : p < x.size.toNat := by omega
      rw [if_neg hnew, if_neg hnew, getD_content hold, (hmapped.backs hold).fileByte]
  · rw [length_overlay (by omega), hsize, hlen]

end Write

end Xv6.Fs
