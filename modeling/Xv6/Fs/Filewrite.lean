/-
# Xv6.Fs.Filewrite — a write through a descriptor (`filewrite` of `kernel/file.c`), and what is read back.

A transaction holds few blocks, so `filewrite` hands the data to `writei` in chunks of at most `maxWrite`
bytes and moves the offset of the file along.  Each chunk is laid over the content at the offset where the
one before it ended, and overlays at consecutive offsets are one overlay (`overlay_append`), so in the end
the descriptor has written what a single `writei` would have (`Rewrites.trans`).
-/
import Xv6.Fs.Log
import Xv6.Fs.Supply

namespace Xv6.Fs

open Function List
open Kernel (Cid Container BSIZE neg64)
open Lib (bind_eq_ok)

/-! ## The code -/

inductive FilePanic
  | fs (p : Panic)
  | shortFilewrite
deriving DecidableEq

def maxWrite : Nat := (MAXOPBLOCKS - 1 - 1 - 2) / 2 * BSIZE

/-- The panics of the file system, as `filewrite` passes them on. -/
def passed {α : Type} : Except Panic α → Except FilePanic α
  | .ok r => .ok r
  | .error p => .error (.fs p)

section Code

variable (sb : Superblock) (c : Cid)

/-- The loop of `filewrite` on inode `i`: how much it has written, and `f->off`. -/
def filewriteLoop (i : Nat) (src : Nat → Option (BitVec 8)) (n : Nat) :
    Nat → Nat → BitVec 32 → DiskInode → Store → Except FilePanic (Nat × BitVec 32 × DiskInode × Store)
  | 0, done, off, x, st => .ok (done, off, x, st)
  | fuel + 1, done, off, x, st =>
    if done < n then do
      let n1 := min (n - done) maxWrite
      let (r, x, st) ← passed (writei sb c i x (fun k => src (done + k)) off (BitVec.ofNat 32 n1) st)
      let off := if 0 < r then off + BitVec.ofInt 32 r else off
      if r < 0 then .ok (done, off, x, st)
      else if r ≠ n1 then .error .shortFilewrite
      else filewriteLoop i src n fuel (done + n1) off x st
    else .ok (done, off, x, st)

/-- `filewrite(f, addr, n)` for a file of type `FD_INODE`.  Every turn writes at least one byte or ends the
loop, so `n` turns are enough. -/
def filewrite (writable : Bool) (i : Nat) (src : Nat → Option (BitVec 8)) (n : Int) (off : BitVec 32) (x : DiskInode)
    (st : Store) : Except FilePanic (Int × BitVec 32 × DiskInode × Store) :=
  if writable then do
    let (done, off, x, st) ← filewriteLoop sb c i src n.toNat n.toNat 0 off x st
    .ok (if (done : Int) = n then n else -1, off, x, st)
  else .ok (-1, off, x, st)

end Code

/-! ## Chunks -/

section Chunks

variable {sb : Superblock} {c : Cid} {i off n1 : Nat} {x x' x'' : DiskInode} {d d' d'' : Disk}
  {src : Nat → Option (BitVec 8)} {st : Store}
variable {data new : List (BitVec 8)}

/-- **Overlays at consecutive offsets are one.** -/
theorem overlay_append {old : List (BitVec 8)} (hoff : off ≤ old.length) :
    overlay (overlay old off data) (off + data.length) new = overlay old off (data ++ new) := by
  have htake : (old.take off ++ data).length = off + data.length := by
    rw [length_append, length_take, Nat.min_eq_left hoff]
  have hhead : (overlay old off data).take (off + data.length) = old.take off ++ data := by
    unfold overlay
    rw [← htake, take_left']
    rfl
  have htail : (overlay old off data).drop (off + data.length + new.length) = old.drop (off + (data ++ new).length) := by
    unfold overlay
    rw [← drop_drop, ← htake, drop_left', drop_drop, htake, length_append, Nat.add_assoc]
    rfl
  rw [overlay, hhead, htail, overlay, append_assoc (old.take off)]

theorem Rewrites.trans (h : Rewrites sb i x x' off data d d') (h' : Rewrites sb i x' x'' (off + data.length) new d' d'')
    (hoff : off ≤ x.size.toNat) : Rewrites sb i x x'' off (data ++ new) d d'' where
  sound := h'.sound
  self := h'.self
  mapped := h'.mapped
  content := by
    rw [h'.content, h.content, overlay_append]
    rwa [length_content]
  others j hj := (h'.others j hj).trans (h.others j hj)
  contents j hj := (h'.contents j hj).trans (h.contents j hj)

theorem writeLoop_congr {src' : Nat → Option (BitVec 8)} {n : Nat} (hsrc : ∀ k, k < n → (src k).isSome)
    (h : ∀ k, k < n → src' k = src k) (fuel tot off : Nat) (x : DiskInode) (st : Store) :
    writeLoop sb c src' n fuel tot off x st = writeLoop sb c src n fuel tot off x st := by
  have hsrc' : ∀ k, k < n → (src' k).isSome := fun k hk => by rw [h k hk]; exact hsrc k hk
  have hblock : ∀ tot off blk, turnBlock src' n tot off blk = turnBlock src n tot off blk := by
    intro tot off blk
    have hle := turnLen_le n tot off
    apply overwrite_congr
    · intro k hk
      rw [h _ (by omega)]
    · intro p _ _
      rfl
  induction fuel generalizing tot off x st with
  | zero => rfl
  | succ fuel ih =>
    by_cases hlt : tot < n
    · rw [writeLoop_turn hsrc hlt, writeLoop_turn hsrc' hlt]
      simp only [copied, hblock, ih]
    · rw [writeLoop_done hlt, writeLoop_done hlt]

theorem maxWrite_pos : 0 < maxWrite := by decide

/-- The first `n` bytes of a buffer that has them. -/
def bytesOf (src : Nat → Option (BitVec 8)) (n : Nat) : List (BitVec 8) := (List.range n).map fun k => (src k).getD 0

theorem length_bytesOf (src : Nat → Option (BitVec 8)) (n : Nat) : (bytesOf src n).length = n := by
  unfold bytesOf
  rw [length_map, length_range]

theorem source_bytesOf {n k : Nat} (hsrc : (src k).isSome) (hk : k < n) : src k = source (bytesOf src n) k := by
  unfold source bytesOf
  obtain ⟨b, hb⟩ := Option.isSome_iff_exists.mp hsrc
  rw [getElem?_map, getElem?_range hk, Option.map_some, hb]
  rfl

theorem writei_bytesOf {off : BitVec 32} (hoff : off.toNat ≤ x.size.toNat)
    (hsrc : ∀ k, k < n1 → (src k).isSome) (hfit : off.toNat + n1 ≤ 274432) :
    writei sb c i x src off (BitVec.ofNat 32 n1) st = writei sb c i x (source (bytesOf src n1)) off (BitVec.ofNat 32 n1) st := by
  have hlen := length_bytesOf src n1
  have hnat : (BitVec.ofNat 32 n1).toNat = n1 := by
    rw [BitVec.toNat_ofNat, Nat.mod_eq_of_lt (by omega)]
  rw [writei_eq hoff (by rwa [hnat]), writei_eq hoff (by rwa [hnat]), writeLoop_congr]
  · intro k hk
    exact isSome_source (by omega)
  · intro k hk
    rw [hnat] at hk
    exact source_bytesOf (hsrc k hk) hk

/-- **One piece goes through**: `writei` has spent the blocks that it needed, and left the inode in order. -/
theorem writei_carries {off : BitVec 32} (hs : st.Sated)
    (hsound : Sound sb (names (inodesOf sb st.disk) st.disk) st.disk) (hx : inodesOf sb st.disk i = some x)
    (hoff : off.toNat ≤ x.size.toNat) (hsrc : ∀ k, k < n1 → (src k).isSome) (hfit : off.toNat + n1 ≤ 274432)
    (h : Supply sb c st (needed x st.disk (blocksOf off.toNat n1))) :
    ∃ x' st', writei sb c i x src off (BitVec.ofNat 32 n1) st = .ok (n1, x', st') ∧ st'.Sated ∧
      Sound sb (names (inodesOf sb st'.disk) st'.disk) st'.disk ∧ inodesOf sb st'.disk i = some x' ∧
      Spends sb c st st' (needed x st.disk (blocksOf off.toNat n1)) ∧
      Fills x x' st.disk st'.disk (blocksOf off.toNat n1) := by
  have hlen := length_bytesOf src n1
  have hnat : (BitVec.ofNat 32 n1).toNat = (bytesOf src n1).length := by
    rw [BitVec.toNat_ofNat, Nat.mod_eq_of_lt (by omega), hlen]
  rw [writei_bytesOf hoff hsrc hfit]
  obtain ⟨r, x', st', hrun, hs'⟩ := writei_runs hs hx hsound hoff hnat (by rwa [hlen]) (by rwa [hlen])
  obtain ⟨hr, hsound', hx'⟩ := writei_keeps hrun hs' hx hsound hoff hnat (by rwa [hlen])
  obtain ⟨hspends, hfills⟩ := writei_spends hrun hs' hx hsound hoff hnat (by rwa [hlen])
  rw [hlen] at hr hspends hfills
  rw [hr] at hrun
  exact ⟨x', st', hrun, hs', hsound', hx', hspends, hfills⟩

/-- **One piece**: in an inode without holes `writei` writes it. -/
theorem writei_piece {st' : Store} {off : BitVec 32} {r : Int}
    (hrun : writei sb c i x src off (BitVec.ofNat 32 n1) st = .ok (r, x', st')) (hs' : st'.Sated)
    (hsound : Sound sb (names (inodesOf sb st.disk) st.disk) st.disk) (hx : inodesOf sb st.disk i = some x)
    (hmapped : x.MappedTo st.disk x.size.toNat) (hoff : off.toNat ≤ x.size.toNat)
    (hsrc : ∀ k, k < n1 → (src k).isSome) (hfit : off.toNat + n1 ≤ 274432) :
    Rewrites sb i x x' off.toNat (bytesOf src n1) st.disk st'.disk := by
  have hlen := length_bytesOf src n1
  have hnat : (BitVec.ofNat 32 n1).toNat = (bytesOf src n1).length := by
    rw [BitVec.toNat_ofNat, Nat.mod_eq_of_lt (by omega), hlen]
  rw [writei_bytesOf hoff hsrc hfit] at hrun
  exact (writei_rewrites hrun hs' hsound hx hmapped hoff hnat (by rwa [hlen])).2

theorem Fills.needed_split {d d' : Disk} {off n : Nat} (h : Fills x x' d d' (blocksOf off n1)) (hn : n1 ≤ n)
    (hend : off + n ≤ 274432) : needed x d (blocksOf off n) =
      needed x d (blocksOf off n1) + needed x' d' (blocksOf (off + n1) (n - n1)) := by
  have hsum : n = n1 + (n - n1) := by omega
  conv_lhs => rw [hsum, blocksOf_add]
  exact h.needed_union fun bn hbn => lt_of_mem_blocksOf hbn (by omega)

theorem bytesOf_source {done : Nat} (hn : done + n1 ≤ data.length) :
    bytesOf (fun k => source data (done + k)) n1 = (data.drop done).take n1 := by
  apply ext_getElem?
  intro k
  by_cases hk : k < n1
  · have hlt : done + k < data.length := by omega
    rw [bytesOf, getElem?_map, getElem?_range hk, getElem?_take_of_lt hk, getElem?_drop, Option.map_some]
    unfold source
    rw [getElem?_eq_getElem hlt]
    rfl
  · rw [getElem?_eq_none (by rw [length_bytesOf]; omega), getElem?_eq_none (by rw [length_take]; omega)]

/-- **One chunk**: `writei` writes it and has taken the blocks that it needed. -/
theorem writei_chunk {off : BitVec 32} {done : Nat} (hs : st.Sated)
    (hsound : Sound sb (names (inodesOf sb st.disk) st.disk) st.disk) (hx : inodesOf sb st.disk i = some x)
    (hmapped : x.MappedTo st.disk x.size.toNat) (hoff : off.toNat ≤ x.size.toNat) (hn : done + n1 ≤ data.length)
    (hfit : off.toNat + (data.length - done) ≤ 274432)
    (h : Supply sb c st (needed x st.disk (blocksOf off.toNat (data.length - done)))) :
    ∃ x' st', writei sb c i x (fun k => source data (done + k)) off (BitVec.ofNat 32 n1) st = .ok (n1, x', st') ∧
      st'.Sated ∧ Rewrites sb i x x' off.toNat ((data.drop done).take n1) st.disk st'.disk ∧
      Supply sb c st' (needed x' st'.disk (blocksOf (off.toNat + n1) (data.length - (done + n1)))) := by
  have hsub : blocksOf off.toNat n1 ⊆ blocksOf off.toNat (data.length - done) := by
    have hsum : data.length - done = n1 + (data.length - done - n1) := by omega
    rw [hsum, blocksOf_add]
    exact Finset.subset_union_left
  have hsrc : ∀ k, k < n1 → (source data (done + k)).isSome := fun k hk => isSome_source (by omega)
  obtain ⟨x', st', hrun, hs', -, -, hspends, hfills⟩ := writei_carries hs hsound hx hoff hsrc (by omega)
    (h.mono (needed_mono x st.disk hsub))
  have hrewrites := writei_piece hrun hs' hsound hx hmapped hoff hsrc (by omega)
  rw [bytesOf_source hn] at hrewrites
  rw [hfills.needed_split (by omega) hfit, Nat.sub_sub] at h
  exact ⟨x', st', hrun, hs', hrewrites, (hspends _).mp h⟩

/-- **The loop of `filewrite` writes what is left of the data.** -/
theorem filewriteLoop_rewrites (fuel : Nat) : ∀ {done : Nat} {off : BitVec 32} {x : DiskInode} {st : Store},
    data.length - done ≤ fuel → done ≤ data.length → st.Sated → Sound sb (names (inodesOf sb st.disk) st.disk) st.disk →
    inodesOf sb st.disk i = some x → x.MappedTo st.disk x.size.toNat → off.toNat ≤ x.size.toNat →
    off.toNat + (data.length - done) ≤ 274432 →
    Supply sb c st (needed x st.disk (blocksOf off.toNat (data.length - done))) →
    ∃ off' x' st', filewriteLoop sb c i (source data) data.length fuel done off x st = .ok (data.length, off', x', st') ∧
      off'.toNat = off.toNat + (data.length - done) ∧
      Rewrites sb i x x' off.toNat (data.drop done) st.disk st'.disk := by
  induction fuel with
  | zero =>
    intro done off x st hfuel hdone hs hsound hx hmapped hoff hfit h
    have hend : done = data.length := by omega
    subst hend
    rw [Nat.sub_self, drop_length]
    exact ⟨off, x, st, rfl, rfl, .nothing hsound hx hmapped _⟩
  | succ fuel ih =>
    intro done off x st hfuel hdone hs hsound hx hmapped hoff hfit h
    unfold filewriteLoop
    by_cases hlt : done < data.length
    · rw [if_pos hlt]
      have hpos := maxWrite_pos
      generalize hn1 : min (data.length - done) maxWrite = n1
      have hchunk : done + n1 ≤ data.length := by omega
      obtain ⟨x1, st1, hrun, hs1, hfirst, hsup⟩ := writei_chunk hs hsound hx hmapped hoff hchunk hfit h
      have hlen : ((data.drop done).take n1).length = n1 := by rw [length_take, length_drop]; omega
      have hsize := hfirst.size hoff
      have hmove : (off + BitVec.ofInt 32 (n1 : Int)).toNat = off.toNat + n1 := by
        rw [BitVec.ofInt_natCast, BitVec.toNat_add, BitVec.toNat_ofNat, Nat.mod_eq_of_lt (a := n1) (by omega),
          Nat.mod_eq_of_lt (by omega)]
      rw [← hmove] at hsup
      have hfuel1 : data.length - (done + n1) ≤ fuel := by omega
      obtain ⟨off', x', st', hloop, hoff', hrest⟩ := ih hfuel1 hchunk hs1 hfirst.sound hfirst.self hfirst.mapped
        (by omega) (by omega) hsup
      refine ⟨off', x', st', ?_, by omega, ?_⟩
      · have hnpos : (0 : Int) < n1 := by omega
        dsimp only
        rw [hrun]
        simp only [passed, bind, Except.bind]
        rw [if_pos hnpos, if_neg (Int.not_lt.mpr hnpos.le), if_neg (fun hne => hne rfl)]
        exact hloop
      · rw [hmove] at hrest
        have hdata : data.drop done = (data.drop done).take n1 ++ data.drop (done + n1) := by
          rw [← drop_drop, take_append_drop]
        rw [hdata]
        exact hfirst.trans (by rwa [hlen]) hoff
    · rw [if_neg hlt]
      have hend : done = data.length := by omega
      subst hend
      rw [Nat.sub_self, drop_length]
      exact ⟨off, x, st, rfl, rfl, .nothing hsound hx hmapped _⟩

end Chunks

/-! ## Reading it back -/

section Contents

variable {sb : Superblock} {c : Cid} {i : Nat} {x x' : DiskInode} {d : Disk} {off : BitVec 32}
  {data : List (BitVec 8)}

theorem DiskInode.MappedTo.holds (h : x.MappedTo d x.size.toNat) : x.Holds d (x.content d) where
  mapped := by rwa [length_content]
  byte_eq p hp := by
    rw [length_content] at hp
    rw [← getD_eq_getElem _ 0, getD_content hp, (h.backs hp).fileByte]

/-- `data` was stored in the file at `off`: the content is the old one
with the data laid over it, nothing was done to the other files, and `readi` gives any part of the new
content, cut at its end. -/
structure Stored (sb : Superblock) (i : Nat) (x : DiskInode) (d : Disk) (off : Nat) (data : List (BitVec 8))
    (x' : DiskInode) (st' : Store) : Prop where
  written : Rewrites sb i x x' off data d st'.disk
  size : x'.size.toNat = max x.size.toNat (off + data.length)
  read : ∀ (c' : Cid) (off2 m : BitVec 32), off2.toNat ≤ x'.size.toNat → off2.toNat + m.toNat < 2 ^ 32 →
    readi sb c' x' anywhere off2 m st' =
      .ok ((((overlay (x.content d) off data).drop off2.toNat).take m.toNat).length,
        ((overlay (x.content d) off data).drop off2.toNat).take m.toNat, x', st')

theorem Rewrites.stored {off : Nat} {st' : Store} (h : Rewrites sb i x x' off data d st'.disk) (hoff : off ≤ x.size.toNat) :
    Stored sb i x d off data x' st' where
  written := h
  size := h.size hoff
  read c' off2 m hoff2 hsum := by
    rw [← h.content]
    rw [← length_content x' st'.disk] at hoff2
    exact readi_file h.mapped.holds (length_content ..).symm hoff2 hsum

/-- **File contents.**  `writei`, and `filewrite` with the offset of the file at `off`, store the data, when
the block map keeps ownership, the inode has no holes, and there are blocks for the write.  (The marks
`full` and `limited` are notes that no function reads.) -/
theorem write_stores (cont : Cid → Container) (hsound : Sound sb (names (inodesOf sb d) d) d)
    (hx : inodesOf sb d i = some x) (hmapped : x.MappedTo d x.size.toNat) (hoff : off.toNat ≤ x.size.toNat)
    (hfit : off.toNat + data.length ≤ MAXFILE * BSIZE)
    (hsupply : Supply sb c ⟨d, cont, false, false⟩ (needed x d (blocksOf off.toNat data.length))) :
    (∃ x' st', writei sb c i x (source data) off (BitVec.ofNat 32 data.length) ⟨d, cont, false, false⟩ =
        .ok (data.length, x', st') ∧ Stored sb i x d off.toNat data x' st') ∧
      ∃ off' x' st', filewrite sb c true i (source data) data.length off x ⟨d, cont, false, false⟩ =
        .ok (data.length, off', x', st') ∧ off'.toNat = off.toNat + data.length ∧
        Stored sb i x d off.toNat data x' st' := by
  have hs : Store.Sated ⟨d, cont, false, false⟩ := ⟨rfl, rfl⟩
  have hnat : (BitVec.ofNat 32 data.length).toNat = data.length := by
    rw [BitVec.toNat_ofNat, Nat.mod_eq_of_lt]
    have hmax : MAXFILE * BSIZE = 274432 := rfl
    omega
  constructor
  · obtain ⟨r, x', st', hrun, hs'⟩ := writei_runs hs hx hsound hoff hnat hfit hsupply
    obtain ⟨rfl, hrewrites⟩ := writei_rewrites hrun hs' hsound hx hmapped hoff hnat hfit
    exact ⟨x', st', hrun, hrewrites.stored hoff⟩
  obtain ⟨off', x', st', hloop, hoff', hrewrites⟩ := filewriteLoop_rewrites data.length (Nat.sub_le data.length 0)
    (Nat.zero_le _) hs hsound hx hmapped hoff hfit hsupply
  refine ⟨off', x', st', ?_, hoff', hrewrites.stored hoff⟩
  unfold filewrite
  rw [if_pos rfl, Int.toNat_natCast, hloop]
  simp only [bind, Except.bind, if_true]

theorem inodesOf_blank : inodesOf mkfsSb (blank mkfsSb) 1 = some { Icache.newInode .dir with nlink := 1 } := by
  unfold blank
  rw [inodesOf_writeInode (by decide), if_neg (by decide), update_self]

theorem supply_root {d : Disk} {k : Nat} (hd : ∀ e, mkfsSb.datastart ≤ e → e < mkfsSb.size → bit mkfsSb d e = false)
    (hk : k ≤ 14) :
    Supply mkfsSb 0 ⟨d, fun _ => Kernel.rootCont, false, false⟩ k := by
  have hfree : Finset.Ico mkfsSb.datastart (mkfsSb.datastart + k) ⊆ freeBlocks mkfsSb d := by
    intro e he
    rw [Finset.mem_Ico] at he
    have hsize : mkfsSb.datastart + 14 ≤ mkfsSb.size := by decide
    exact Finset.mem_filter.mpr ⟨Finset.mem_range.mpr (by omega), hd e he.1 (by omega)⟩
  refine ⟨?_, fun j hj => ?_⟩
  · have hcard := Finset.card_le_card hfree
    rwa [Nat.card_Ico, Nat.add_sub_cancel_left] at hcard
  · have hnever : ∀ j < 14, ¬ Refuses (charge^[j] Kernel.rootCont) := by decide
    exact hnever j (by omega)

theorem bit_blank (e : Nat) (hlow : mkfsSb.datastart ≤ e) (he : e < mkfsSb.size) : bit mkfsSb (blank mkfsSb) e = false := by
  unfold blank
  rw [bit_writeInode (by decide) e he, bit_freeMap mkfsSb he, decide_eq_false (Nat.not_lt.mpr hlow)]

theorem supply_blank {n : Nat} (hn : 0 < n) (hblock : n ≤ BSIZE) :
    Supply mkfsSb 0 ⟨blank mkfsSb, fun _ => Kernel.rootCont, false, false⟩
      (needed { Icache.newInode .dir with nlink := 1 } (blank mkfsSb) (blocksOf (0 : BitVec 32).toNat n)) := by
  have hone := @supply_root (blank mkfsSb) 1 bit_blank (by decide)
  apply hone.mono
  have hend : (0 : BitVec 32).toNat % BSIZE + n ≤ BSIZE := by show 0 + n ≤ BSIZE; omega
  rw [blocksOf_turn hn hend, needed_direct _ _ (by decide)]
  split <;> decide

/-- Two bytes written into the empty root directory of a new file system. -/
theorem write_stores_blank : ∃ x, inodesOf mkfsSb (blank mkfsSb) 1 = some x ∧
    (∃ x' st', writei mkfsSb 0 1 x (source [7, 8]) 0 2 ⟨blank mkfsSb, fun _ => Kernel.rootCont, false, false⟩ =
        .ok (2, x', st') ∧ Stored mkfsSb 1 x (blank mkfsSb) 0 [7, 8] x' st') ∧
      ∃ off' x' st', filewrite mkfsSb 0 true 1 (source [7, 8]) 2 0 x ⟨blank mkfsSb, fun _ => Kernel.rootCont, false, false⟩ =
        .ok (2, off', x', st') ∧ off'.toNat = 2 ∧ Stored mkfsSb 1 x (blank mkfsSb) 0 [7, 8] x' st' := by
  have hwf : Wf mkfsSb (blank mkfsSb) := wf_blank (by decide)
  exact ⟨_, inodesOf_blank, write_stores (fun _ => Kernel.rootCont) hwf.sound inodesOf_blank (hwf.mapped 1 _ inodesOf_blank)
    (by decide) (by decide) (supply_blank (by decide) (by decide))⟩

end Contents

end Xv6.Fs
