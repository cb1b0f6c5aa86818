/-
# Xv6.Fs.Content — `itrunc`, `readi` and `writei` on a well-formed file system.

All three work on the copy of one inode and, but for `readi`, write it back at the end.  What their
caller gets is one relation (`Wrote`): the file system is well-formed again, the inode on disk is the
copy, and the other inodes are as before.  `itrunc` returns always; `writei` can run into a bug of
`balloc` only in a container with a limit, and that is the statement `Billed`, proved for `balloc` once
and passed on through sequencing.
-/
import Xv6.Fs.Growth

namespace Xv6.Fs

open Function List Option
open Kernel (Cid Container BSIZE neg64)
open Lib (Owns bind_eq_ok bind_eq_error update_cases update_eq_some of_update_none)

/-- Inode `i` was overwritten with `x`, in a well-formed file system. -/
structure Wrote (sb : Superblock) (i : Nat) (x : DiskInode) (d d' : Disk) : Prop where
  wf : Wf sb d'
  self : readInode sb d' i = x
  others : ∀ j, j < sb.ninodes → j ≠ i → readInode sb d' j = readInode sb d j

/-! ## Writing one inode -/

section Inodes

variable {sb : Superblock} {d d' : Disk} {i : Nat} {x x' x'' : DiskInode}

theorem DiskInode.addrAt_of_addrs (h : x'.addrs = x.addrs) (d : Disk) (ix : Index) : x'.addrAt d ix = x.addrAt d ix := by
  cases ix with
  | addr k => exact congrFun h k
  | entry j => simp only [addrAt, h]

theorem DiskInode.addrAt_of_zero (h : ∀ k, x.addrs k = 0) (d : Disk) (ix : Index) : x.addrAt d ix = 0 := by
  cases ix with
  | addr k => exact h k
  | entry j => exact if_pos (h _)

/-- A file is never longer than `MAXFILE` blocks. -/
theorem DiskInode.MappedTo.le {n : Nat} (h : x.MappedTo d n) : n ≤ 274432 := by
  by_contra hn
  exact absurd (h 268 (by omega)).1 (by decide)

theorem DiskInode.MappedTo.mono {n m : Nat} (h : x.MappedTo d n) (hm : m ≤ n) : x.MappedTo d m :=
  fun bn hbn => h bn (Nat.lt_of_lt_of_le hbn hm)

theorem Wrote.refl (hwf : Wf sb d) (hx : inodesOf sb d i = some x) : Wrote sb i x d d :=
  ⟨hwf, (inodesOf_eq_some.mp hx).2.2, fun _ _ _ => rfl⟩

theorem wrote_of_wf (hi : i < sb.ninodes) (hsame : SameInodes sb d d')
    (hwf : Wf sb (writeInode sb i x d')) : Wrote sb i x d (writeInode sb i x d') where
  wf := hwf
  self := by rw [readInode_writeInode hi hi, if_pos rfl]
  others j hj hne := by rw [readInode_writeInode hi hj, if_neg hne, hsame j hj]

theorem Extends.sound_of_addrs {tab : Nat → Option DiskInode} (h : Extends sb tab i x x' d d')
    (haddrs : x''.addrs = x'.addrs) : Sound sb (names (update tab i (some x'')) d') d' := by
  apply h.sound.mono _ fun _ _ => rfl
  rintro ⟨j, ix⟩ a ⟨hne, y, hy, ha⟩
  obtain ⟨rfl, rfl⟩ | ⟨hj, hy⟩ := update_eq_some hy
  · exact ⟨hne, x', update_self .., (DiskInode.addrAt_of_addrs haddrs d' ix) ▸ ha⟩
  · exact ⟨hne, y, by rwa [update_of_ne hj], ha⟩

/-- **The end of `writei`, and `iupdate`**: an extended copy is written back. -/
theorem Extends.flush (h : Extends sb (inodesOf sb d) i x x' d d') (hwf : Wf sb d)
    (hx : inodesOf sb d i = some x) (haddrs : x''.addrs = x'.addrs) (ht : x''.type ≠ 0)
    (hn : x'.MappedTo d' x''.size.toNat) : Wrote sb i x'' d (writeInode sb i x'' d') := by
  have hi := (inodesOf_eq_some.mp hx).1
  have haddr := DiskInode.addrAt_of_addrs haddrs d'
  apply wrote_of_wf hi h.inodes
  apply wf_writeInode hi
  · rw [if_neg ht, h.inodes.inodesOf]
    exact h.sound_of_addrs haddrs
  rw [if_neg ht, h.inodes.inodesOf]
  intro j y hy bn hbn
  obtain ⟨rfl, rfl⟩ | ⟨hj, hy⟩ := update_eq_some hy
  · rw [haddr]
    exact hn bn hbn
  · rw [h.others j y hj hy]
    exact hwf.mapped j y hy bn hbn

theorem wrote_iupdate (hwf : Wf sb d) (hx : inodesOf sb d i = some x) (haddrs : x'.addrs = x.addrs)
    (hsize : x'.size = x.size) (ht : x'.type ≠ 0) : Wrote sb i x' d (writeInode sb i x' d) :=
  (Extends.refl hwf.sound hx).flush hwf hx haddrs ht (hsize ▸ hwf.mapped i x hx)

theorem wrote_free (hwf : Wf sb d) (hi : i < sb.ninodes) (ht : x.type = 0) : Wrote sb i x d (writeInode sb i x d) := by
  apply wrote_of_wf hi fun _ _ => rfl
  apply wf_writeInode hi
  · rw [if_pos ht]
    apply hwf.sound.mono _ fun _ _ => rfl
    rintro p a ⟨hne, y, hy, ha⟩
    exact ⟨hne, y, of_update_none hy, ha⟩
  · rw [if_pos ht]
    intro j y hy
    exact hwf.mapped j y (of_update_none hy)

theorem wf_empty {own : Place → BlockNo → Prop} (hi : i < sb.ninodes) (ht : x.type ≠ 0)
    (haddrs : ∀ k, x.addrs k = 0) (hsize : x.size = 0) (hsound : Sound sb own d)
    (hown : ∀ j y, j ≠ i → inodesOf sb d j = some y → ∀ ix, y.addrAt d ix ≠ 0 → own (j, ix) (y.addrAt d ix))
    (hmap : ∀ j y, j ≠ i → inodesOf sb d j = some y → y.MappedTo d y.size.toNat) :
    Wf sb (writeInode sb i x d) := by
  apply wf_writeInode hi
  · rw [if_neg ht]
    apply hsound.mono _ fun _ _ => rfl
    rintro ⟨j, ix⟩ a ⟨hne, y, hy, ha⟩
    obtain ⟨rfl, rfl⟩ | ⟨hj, hy⟩ := update_eq_some hy
    · exact absurd (ha.symm.trans (x.addrAt_of_zero haddrs d ix)) hne
    · have hname := hown j y hj hy ix
      rw [ha] at hname
      exact hname hne
  · rw [if_neg ht]
    intro j y hy
    obtain ⟨rfl, rfl⟩ | ⟨hj, hy⟩ := update_eq_some hy
    · intro bn hbn
      rw [hsize] at hbn
      exact absurd hbn (Nat.not_lt_zero _)
    · exact hmap j y hj hy

theorem wrote_empty (hwf : Wf sb d) (hi : i < sb.ninodes) (ht : x.type ≠ 0) (haddrs : ∀ k, x.addrs k = 0)
    (hsize : x.size = 0) : Wrote sb i x d (writeInode sb i x d) :=
  wrote_of_wf hi (fun _ _ => rfl) <| wf_empty hi ht haddrs hsize hwf.sound
    (fun _ y _ hy _ hne => ⟨hne, y, hy, rfl⟩) fun j y _ hy => hwf.mapped j y hy

end Inodes

/-! ## `itrunc` -/

section Trunc

variable {sb : Superblock} {c : Cid} {i : Nat}

theorem truncDirect_ok (ks : List (Fin 12)) (x : DiskInode) (st : Store) (own : Place → BlockNo → Prop)
    (hsound : Sound sb own st.disk)
    (hown : ∀ k ∈ ks, x.addrs k.castSucc ≠ 0 → own (i, .addr k.castSucc) (x.addrs k.castSucc)) :
    ∃ x' st', truncDirect sb c ks x st = .ok (x', st') ∧ Frees sb st st' ∧
      Sound sb (fun q a => own q a ∧ ∀ k ∈ ks, q ≠ (i, .addr k.castSucc)) st'.disk ∧
      x' = { x with addrs := x'.addrs } ∧ x'.addrs (Fin.last 12) = x.addrs (Fin.last 12) ∧
      (∀ k, x.addrs k = 0 → x'.addrs k = 0) ∧ ∀ k ∈ ks, x'.addrs k.castSucc = 0 := by
  induction ks generalizing x st own with
  | nil =>
    exact ⟨x, st, rfl, .refl sb st, hsound.mono (fun _ _ h => h.1) fun _ _ => rfl, rfl, rfl, fun _ h => h, by simp⟩
  | cons k ks ih =>
    unfold truncDirect
    by_cases hz : x.addrs k.castSucc = 0
    · rw [if_pos hz]
      obtain ⟨x', st', hr, hf, hs, hx, hl, hk, hks⟩ := ih x st own hsound fun k' hk' => hown k' (mem_cons_of_mem _ hk')
      refine ⟨x', st', hr, hf, hs.mono ?_ fun _ _ => rfl, hx, hl, hk, ?_⟩
      · rintro q a ⟨hq, hne⟩
        exact ⟨hq, fun k' hk' => hne k' (mem_cons_of_mem _ hk')⟩
      · intro k' hk'
        rcases mem_cons.mp hk' with rfl | hk'
        · exact hk _ hz
        · exact hks k' hk'
    rw [if_neg hz]
    obtain ⟨st1, hfree, hf1, hs1⟩ := hsound.bfree (hown k mem_cons_self hz) c
    have hown1 : ∀ k' ∈ ks, update x.addrs k.castSucc 0 k'.castSucc ≠ 0 →
        own (i, .addr k'.castSucc) (update x.addrs k.castSucc 0 k'.castSucc) ∧
          ((i, Index.addr k'.castSucc) : Place) ≠ (i, .addr k.castSucc) := by
      intro k' hk' hne
      have hkk : k'.castSucc ≠ k.castSucc := by
        intro heq
        rw [heq, update_self] at hne
        exact hne rfl
      rw [update_of_ne hkk] at hne ⊢
      exact ⟨hown k' (mem_cons_of_mem _ hk') hne, fun heq =>
        hkk (Index.addr.inj (congrArg Prod.snd heq))⟩
    obtain ⟨x', st', hr, hf, hs, hx, hl, hk, hks⟩ := ih { x with addrs := update x.addrs k.castSucc 0 } st1 _ hs1 hown1
    refine ⟨x', st', bind_eq_ok.mpr ⟨st1, hfree, hr⟩, hf1.trans hf, hs.mono ?_ fun _ _ => rfl, hx, ?_, ?_, ?_⟩
    · rintro q a ⟨hq, hne⟩
      exact ⟨⟨hq, hne k mem_cons_self⟩, fun k' hk' => hne k' (mem_cons_of_mem _ hk')⟩
    · rw [hl]
      exact update_of_ne (Fin.castSucc_lt_last k).ne' _ _
    · intro k' hk'
      apply hk
      show update x.addrs k.castSucc 0 k' = 0
      exact update_cases (fun _ => rfl) (fun _ _ => id) k' hk'
    · intro k' hk'
      rcases mem_cons.mp hk' with rfl | hk'
      · exact hk _ (update_self ..)
      · exact hks k' hk'

/-- The entries of the indirect block: the block itself is not touched, the names of `js` go. -/
theorem truncEntries_ok (a : Block) (js : List (Fin 256)) (hnodup : js.Nodup) (st : Store)
    (own : Place → BlockNo → Prop) (hsound : Sound sb own st.disk)
    (hown : ∀ j ∈ js, a j ≠ 0 → own (i, .entry j) (a j)) :
    ∃ st', truncEntries sb c a js st = .ok st' ∧ Frees sb st st' ∧
      Sound sb (fun q b => own q b ∧ ∀ j ∈ js, q ≠ (i, .entry j)) st'.disk := by
  induction js generalizing st own with
  | nil => exact ⟨st, rfl, .refl sb st, hsound.mono (fun _ _ h => h.1) fun _ _ => rfl⟩
  | cons j js ih =>
    obtain ⟨hj, hnodup⟩ := nodup_cons.mp hnodup
    unfold truncEntries
    by_cases hz : a j = 0
    · rw [if_pos hz]
      obtain ⟨st', hr, hf, hs⟩ := ih hnodup st own hsound fun j' hj' => hown j' (mem_cons_of_mem _ hj')
      refine ⟨st', hr, hf, hs.mono ?_ fun _ _ => rfl⟩
      rintro q b ⟨hq, hne⟩
      exact ⟨hq, fun j' hj' => hne j' (mem_cons_of_mem _ hj')⟩
    rw [if_neg hz]
    obtain ⟨st1, hfree, hf1, hs1⟩ := hsound.bfree (hown j mem_cons_self hz) c
    obtain ⟨st', hr, hf, hs⟩ := ih hnodup st1 _ hs1 fun j' hj' hne =>
      ⟨hown j' (mem_cons_of_mem _ hj') hne, fun heq =>
        hj (Index.entry.inj (congrArg Prod.snd heq) ▸ hj')⟩
    refine ⟨st', bind_eq_ok.mpr ⟨st1, hfree, hr⟩, hf1.trans hf, hs.mono ?_ fun _ _ => rfl⟩
    rintro q b ⟨hq, hne⟩
    exact ⟨⟨hq, hne j mem_cons_self⟩, fun j' hj' => hne j' (mem_cons_of_mem _ hj')⟩

theorem truncIndirect_ok (x : DiskInode) (st : Store) (own : Place → BlockNo → Prop)
    (hsound : Sound sb own st.disk)
    (hblk : x.addrs (Fin.last 12) ≠ 0 → own (i, .addr (Fin.last 12)) (x.addrs (Fin.last 12)))
    (hent : ∀ j, x.addrAt st.disk (.entry j) ≠ 0 → own (i, .entry j) (x.addrAt st.disk (.entry j))) :
    ∃ x' st', truncIndirect sb c x st = .ok (x', st') ∧ Frees sb st st' ∧
      Sound sb (fun q b => own q b ∧ q ≠ (i, .addr (Fin.last 12)) ∧ ∀ j, q ≠ (i, .entry j)) st'.disk ∧
      x' = { x with addrs := update x.addrs (Fin.last 12) 0 } := by
  unfold truncIndirect
  by_cases hz : x.addrs (Fin.last 12) = 0
  · rw [if_pos hz]
    refine ⟨x, st, rfl, .refl sb st, hsound.mono (fun _ _ h => h.1) fun _ _ => rfl, ?_⟩
    rw [← hz, update_eq_self]
  rw [if_neg hz]
  obtain ⟨st1, hr1, hf1, hs1⟩ := truncEntries_ok (c := c) (st.disk (x.addrs (Fin.last 12)))
    (finRange 256) (nodup_finRange 256) st own hsound fun j _ hne => by
      have h := hent j
      simp only [DiskInode.addrAt, if_neg hz] at h
      exact h hne
  have hown1 : own (i, .addr (Fin.last 12)) (x.addrs (Fin.last 12)) ∧
      ∀ j ∈ finRange 256, ((i, Index.addr (Fin.last 12)) : Place) ≠ (i, .entry j) :=
    ⟨hblk hz, fun j _ heq => Index.noConfusion (congrArg Prod.snd heq)⟩
  obtain ⟨st2, hr2, hf2, hs2⟩ := hs1.bfree hown1 c
  refine ⟨_, st2, bind_eq_ok.mpr ⟨st1, hr1, bind_eq_ok.mpr ⟨st2, hr2, rfl⟩⟩, hf1.trans hf2,
    hs2.mono ?_ fun _ _ => rfl, rfl⟩
  rintro q b ⟨hq, hne, hne'⟩
  exact ⟨⟨hq, fun j _ => hne' j⟩, hne⟩

/-- **`itrunc` returns**, and leaves an inode without content. -/
theorem itrunc_ok {x : DiskInode} {st : Store} (hwf : Wf sb st.disk) (hx : inodesOf sb st.disk i = some x)
    (c : Cid) :
    ∃ x' st', itrunc sb c i x st = .ok (x', st') ∧ Wrote sb i x' st.disk st'.disk ∧
      x'.type = x.type ∧ x'.nlink = x.nlink ∧ st'.full = st.full ∧ st'.limited = st.limited ∧ SameRoots st st' := by
  obtain ⟨hi, ht, -⟩ := inodesOf_eq_some.mp hx
  have hname : ∀ ix, x.addrAt st.disk ix ≠ 0 →
      names (inodesOf sb st.disk) st.disk (i, ix) (x.addrAt st.disk ix) := fun ix hne => ⟨hne, x, hx, rfl⟩
  obtain ⟨x1, st1, hr1, hf1, hs1, hx1, hl1, -, hks1⟩ := truncDirect_ok (c := c) (finRange 12) x st _
    hwf.sound fun k _ hne => hname (.addr k.castSucc) hne
  -- the indirect block is still as it was
  have hent1 : ∀ j, x1.addrAt st1.disk (.entry j) = x.addrAt st.disk (.entry j) := by
    intro j
    simp only [DiskInode.addrAt, hl1]
    by_cases hz : x.addrs (Fin.last 12) = 0
    · rw [if_pos hz, if_pos hz]
    · rw [if_neg hz, if_neg hz, hf1.data _ (hwf.sound.data (names_indirect hx hz))]
  obtain ⟨x2, st2, hr2, hf2, hs2, hx2⟩ := truncIndirect_ok (c := c) (i := i) x1 st1 _ hs1
    (fun hne => ⟨by rw [hl1] at hne ⊢; exact hname (.addr (Fin.last 12)) hne, fun k _ heq =>
      (Fin.castSucc_lt_last k).ne' (Index.addr.inj (congrArg Prod.snd heq))⟩)
    (fun j hne => ⟨by rw [hent1] at hne ⊢; exact hname (.entry j) hne, fun k _ heq =>
      Index.noConfusion (congrArg Prod.snd heq)⟩)
  have hf := hf1.trans hf2
  have haddrs : ∀ k, x2.addrs k = 0 := by
    intro k
    rw [hx2]
    by_cases hk : k = Fin.last 12
    · subst hk
      exact update_self (Fin.last 12) 0 x1.addrs
    · refine (update_of_ne hk 0 x1.addrs).trans ?_
      have hkk := hks1 (k.castPred hk) (mem_finRange _)
      rwa [Fin.castSucc_castPred] at hkk
  have htype : x2.type = x.type := by rw [hx2, hx1]
  have hothers : ∀ j y, inodesOf sb st2.disk j = some y →
      inodesOf sb st.disk j = some y ∧ ∀ ix, y.addrAt st2.disk ix = y.addrAt st.disk ix := by
    intro j y hy
    rw [hf.inodes.inodesOf] at hy
    exact ⟨hy, DiskInode.addrAt_congr fun hne => hf.data _ (hwf.sound.data (names_indirect hy hne))⟩
  refine ⟨{ x2 with size := 0 }, _, bind_eq_ok.mpr ⟨_, hr1, bind_eq_ok.mpr ⟨_, hr2, rfl⟩⟩, ?_, htype,
    by rw [hx2, hx1], hf.full, hf.limited, hf.roots⟩
  apply wrote_of_wf hi hf.inodes
  refine wf_empty (x := { x2 with size := 0 }) hi (htype ▸ ht) haddrs rfl hs2 ?_ ?_
  · intro j y hj hy ix hne
    obtain ⟨hy, haddr⟩ := hothers j y hy
    rw [haddr] at hne ⊢
    have hplace : ∀ ix', ((j, ix) : Place) ≠ (i, ix') := fun _ heq => hj (congrArg Prod.fst heq)
    exact ⟨⟨⟨hne, y, hy, rfl⟩, fun _ _ => hplace _⟩, hplace _, fun _ => hplace _⟩
  · intro j y hj hy bn hbn
    obtain ⟨hy, haddr⟩ := hothers j y hy
    rw [haddr]
    exact hwf.mapped j y hy bn hbn

end Trunc

section Read

variable {x : DiskInode} {st : Store}

theorem readLoop_ok (sb : Superblock) (c : Cid) (dst : Nat → Bool) (n fuel tot off : Nat) (h : x.MappedTo st.disk (off + (n - tot))) :
    ∃ bytes, readLoop sb c dst n fuel tot off x st = .ok (bytes, x, st) := by
  induction fuel generalizing tot off with
  | zero => exact ⟨[], rfl⟩
  | succ fuel ih =>
    unfold readLoop
    by_cases hlt : tot < n
    · obtain ⟨hbn, hne⟩ := h (off / BSIZE) (by unfold BSIZE; omega)
      rw [if_pos hlt, bmap_of_mapped hbn hne]
      simp only [bind, Except.bind]
      split
      · exact ⟨_, rfl⟩
      have hrest : x.MappedTo st.disk
          (off + min (n - tot) (BSIZE - off % BSIZE) + (n - (tot + min (n - tot) (BSIZE - off % BSIZE)))) :=
        h.mono (by omega)
      obtain ⟨more, hmore⟩ := ih _ _ hrest
      rw [hmore]
      exact ⟨_, rfl⟩
    · rw [if_neg hlt]
      exact ⟨[], rfl⟩

/-- **`readi` changes nothing** when every block below the size is allocated. -/
theorem readi_ok (sb : Superblock) (c : Cid) (h : x.MappedTo st.disk x.size.toNat) (dst : Nat → Bool) (off n : BitVec 32) :
    ∃ r bytes, readi sb c x dst off n st = .ok (r, bytes, x, st) := by
  unfold readi
  split
  · exact ⟨-1, [], rfl⟩
  rename_i hoff
  rw [not_or, BitVec.not_lt, BitVec.not_lt, BitVec.le_def, BitVec.le_def, BitVec.toNat_add] at hoff
  obtain ⟨hle, hwrap⟩ := hoff
  have hn := n.isLt
  have hsz := x.size.isLt
  have hsum : off.toNat + n.toNat < 2 ^ 32 := by
    by_contra hge
    rw [Nat.mod_eq_sub_mod (by omega), Nat.mod_eq_of_lt (by omega)] at hwrap
    omega
  rw [Nat.mod_eq_of_lt hsum] at hwrap
  have hend : off.toNat + ((if x.size < off + n then x.size - off else n).toNat - 0) ≤ x.size.toNat := by
    split
    · rw [BitVec.toNat_sub_of_le (BitVec.le_def.mpr hle)]
      omega
    · rename_i hlast
      rw [BitVec.not_lt, BitVec.le_def, BitVec.toNat_add, Nat.mod_eq_of_lt hsum] at hlast
      omega
  obtain ⟨bytes, hloop⟩ := readLoop_ok sb c dst _ _ 0 off.toNat (h.mono hend)
  refine ⟨_, bytes, bind_eq_ok.mpr ⟨_, hloop, rfl⟩⟩

end Read

section Write

variable {sb : Superblock} {c : Cid} {i : Nat}

/-- The loop of `writei`: the inode grows, and there is no hole below the offset it ends at. -/
theorem writeLoop_grows (tab : Nat → Option DiskInode) (i : Nat) (src : Nat → Option (BitVec 8))
    (n fuel : Nat) {tot off off' : Nat} {x x' : DiskInode} {st st' : Store}
    (h : writeLoop sb c src n fuel tot off x st = .ok (off', x', st')) (hs : st'.Sated) :
    st.Sated ∧ (tab i = some x → Sound sb (names tab st.disk) st.disk →
      Grows sb tab i x x' st.disk st'.disk ∧ (x.MappedTo st.disk off → x'.MappedTo st'.disk off')) := by
  induction fuel generalizing tot off x st tab with
  | zero =>
    cases h
    exact ⟨hs, fun hx hsound => ⟨.refl hsound hx, id⟩⟩
  | succ fuel ih =>
    unfold writeLoop at h
    split at h
    · obtain ⟨⟨a, x1, st1⟩, hb, h⟩ := bind_eq_ok.mp h
      dsimp only at h
      generalize overwrite (st1.disk a) (off % BSIZE) _ _ = blk at h
      split at h
      · -- the copy was cut short
        cases h
        refine ⟨bmap_sated hb hs, fun hx hsound => ?_⟩
        have hgot := bmap_got hb hs hx hsound
        have hturn := hgot.grows.trans (hgot.write blk)
        exact ⟨hturn, hturn.mappedTo⟩
      obtain ⟨hs2, hrest⟩ := ih (update tab i (some x1)) h
      refine ⟨bmap_sated hb hs2, fun hx hsound => ?_⟩
      have hgot := bmap_got hb hs2 hx hsound
      have hturn := hgot.grows.trans (hgot.write blk)
      obtain ⟨hgrows, hmapped⟩ := hrest (update_self ..) hturn.sound
      refine ⟨hturn.trans hgrows, fun hm => hmapped fun bn hlt => ?_⟩
      by_cases hold : bn * 1024 < off
      · exact hturn.mappedTo hm bn hold
      -- the block of this turn
      have hbn : bn = off / BSIZE := by unfold BSIZE at hlt ⊢; omega
      rw [hbn, hgot.addrAt_write, hgot.addr]
      exact ⟨bmap_lt hb, hgot.ne⟩
    · cases h
      exact ⟨hs, fun hx hsound => ⟨.refl hsound hx, id⟩⟩

/-- **`writei` keeps the file system well-formed**, when `balloc` had blocks to give. -/
theorem writei_wrote {x x' : DiskInode} {src : Nat → Option (BitVec 8)} {off n : BitVec 32} {r : Int}
    {st st' : Store} (h : writei sb c i x src off n st = .ok (r, x', st')) (hs : st'.Sated) :
    st.Sated ∧ (Wf sb st.disk → inodesOf sb st.disk i = some x →
      Wrote sb i x' st.disk st'.disk ∧ x'.type = x.type ∧ x'.nlink = x.nlink) := by
  unfold writei at h
  split at h
  · cases h
    exact ⟨hs, fun hwf hx => ⟨.refl hwf hx, rfl, rfl⟩⟩
  rename_i hoff
  rw [not_or, BitVec.not_lt, BitVec.le_def] at hoff
  split at h
  · cases h
    exact ⟨hs, fun hwf hx => ⟨.refl hwf hx, rfl, rfl⟩⟩
  obtain ⟨⟨off', x1, st1⟩, hloop, h⟩ := bind_eq_ok.mp h
  dsimp only at h
  split at h
  · cases h
    obtain ⟨hs0, hgrows⟩ := writeLoop_grows (inodesOf sb st.disk) i src _ _ hloop hs
    refine ⟨hs0, fun hwf hx => ?_⟩
    obtain ⟨-, ht, -⟩ := inodesOf_eq_some.mp hx
    obtain ⟨hext, hmapped⟩ := hgrows hx hwf.sound
    have hm := hmapped ((hwf.mapped i x hx).mono hoff.1)
    have hold : x1.MappedTo st1.disk x.size.toNat := hext.mappedTo (hwf.mapped i x hx)
    have hsize : x1.size = x.size := by rw [hext.fields]
    have htype : x1.type = x.type := by rw [hext.fields]
    have hnlink : x1.nlink = x.nlink := by rw [hext.fields]
    split
    · have hoff' : (BitVec.ofNat 32 off').toNat = off' := by
        have hle := hm.le
        rw [BitVec.toNat_ofNat, Nat.mod_eq_of_lt (by omega)]
      exact ⟨hext.flush hwf hx rfl (htype ▸ ht) (by dsimp only; rwa [hoff']), htype, hnlink⟩
    · exact ⟨hext.flush hwf hx rfl (htype ▸ ht) (hsize ▸ hold), htype, hnlink⟩
  · rename_i hn
    have hzero : n.toNat = 0 := by rw [BitVec.not_lt, BitVec.le_def] at hn; exact Nat.le_zero.mp hn
    rw [hzero] at hloop
    cases hloop
    cases h
    exact ⟨hs, fun hwf hx => ⟨.refl hwf hx, rfl, rfl⟩⟩

end Write

/-! ## Panics -/

/-- What a function did to the accounts: no container changes its kind, and in the root container no
limit was met. -/
structure Bills (c : Cid) (st st' : Store) : Prop where
  roots : SameRoots st st'
  limited : (st.cont c).isroot ≠ 0 → st'.limited = st.limited

/-- The computation `m`, begun in `st`, panics in no root container; `out` is the
store in its result. -/
def Billed {α : Type} (c : Cid) (st : Store) (out : α → Store) : Except Panic α → Prop
  | .ok r => Bills c st (out r)
  | .error _ => (st.cont c).isroot = 0

section Billed

variable {sb : Superblock} {c : Cid} {st st' st'' : Store} {α β : Type} {m : Except Panic α} {out : α → Store}

theorem Bills.refl : Bills c st st := ⟨fun _ => rfl, fun _ => rfl⟩

theorem Bills.trans (h : Bills c st st') (h' : Bills c st' st'') : Bills c st st'' where
  roots := h.roots.trans h'.roots
  limited hroot := (h'.limited (by rwa [h.roots c])).trans (h.limited hroot)

theorem Billed.of_same (h : Billed c st' out m)
    (hcont : st'.cont = st.cont) (hlimited : st'.limited = st.limited) : Billed c st out m := by
  cases m with
  | error e =>
    show (st.cont c).isroot = 0
    rw [← hcont]
    exact h
  | ok r => exact ⟨fun c' => (h.roots c').trans (by rw [hcont]), fun hne => (h.limited (hcont ▸ hne)).trans hlimited⟩

theorem Billed.bind {f : α → Except Panic β} {out' : β → Store}
    (h : Billed c st out m) (hf : ∀ a, Billed c (out a) out' (f a)) : Billed c st out' (m >>= f) := by
  cases m with
  | error e => exact h
  | ok a =>
    have hfa := hf a
    show Billed c st out' (f a)
    cases hr : f a with
    | error e =>
      rw [hr] at hfa
      exact (h.roots c).symm.trans hfa
    | ok b =>
      rw [hr] at hfa
      exact Bills.trans h hfa

theorem balloc_billed : Billed c st Prod.snd (balloc sb c st) := by
  unfold balloc
  split
  · exact ⟨fun _ => rfl, fun _ => rfl⟩
  dsimp only
  split
  · rename_i hneg
    have hroot : (st.cont c).isroot = 0 := by
      by_contra hne
      exact updatedsk_of_isroot hne _ hneg
    cases hfree : bfree sb c _ _ with
    | error e => exact hroot
    | ok st1 =>
      refine ⟨?_, fun hne => absurd hroot hne⟩
      have hback : SameRoots st st1 := SameRoots.trans (sameRoots_charge rfl) (bfree_roots hfree)
      exact fun c' => (Lib.update_same Container.isroot (exceeded_isroot _) c').trans (hback c')
  · exact ⟨sameRoots_charge rfl, fun _ => rfl⟩

theorem bmapAddr_billed (x : DiskInode) (k : Fin 13) : Billed c st (·.2.2) (bmapAddr sb c x k st) := by
  unfold bmapAddr
  split
  · exact balloc_billed.bind fun _ => .refl
  · exact Bills.refl

theorem bmapEntry_billed (blk : BlockNo) (j : Fin 256) : Billed c st Prod.snd (bmapEntry sb c blk j st) := by
  unfold bmapEntry
  split
  · exact balloc_billed.bind fun _ => ⟨fun _ => rfl, fun _ => rfl⟩
  · exact Bills.refl

theorem bmap_billed (x : DiskInode) {bn : Nat} (hbn : bn < MAXFILE) : Billed c st (·.2.2) (bmap sb c x bn st) := by
  unfold bmap
  have hmax : MAXFILE = 268 := rfl
  split
  · exact bmapAddr_billed x _
  · rw [dif_pos (by omega)]
    exact (bmapAddr_billed x _).bind fun _ => (bmapEntry_billed _ _).bind fun _ => .refl

theorem writeLoop_billed (src : Nat → Option (BitVec 8)) (n fuel tot off : Nat) (x : DiskInode)
    (h : off + (n - tot) ≤ 274432) : Billed c st (·.2.2) (writeLoop sb c src n fuel tot off x st) := by
  induction fuel generalizing tot off x st with
  | zero => exact Bills.refl
  | succ fuel ih =>
    unfold writeLoop
    split
    · have hbn : off / BSIZE < MAXFILE := by
        have hmax : MAXFILE = 268 := rfl
        unfold BSIZE
        omega
      apply (bmap_billed x hbn).bind
      rintro ⟨a, x1, st1⟩
      dsimp only
      split
      · exact ⟨fun _ => rfl, fun _ => rfl⟩
      · exact (ih _ _ x1 (by omega)).of_same rfl rfl
    · exact Bills.refl

/-- **`writei` of a root-container process does not panic.** -/
theorem writei_billed (sb : Superblock) (c : Cid) (st : Store) (i : Nat) (x : DiskInode) (src : Nat → Option (BitVec 8))
    (off n : BitVec 32) :
    Billed c st (·.2.2) (writei sb c i x src off n st) := by
  unfold writei
  split
  · exact Bills.refl
  rename_i hoff
  split
  · exact Bills.refl
  rename_i hmax
  have hend : off.toNat + (n.toNat - 0) ≤ 274432 := by
    rw [not_or, BitVec.not_lt, BitVec.not_lt, BitVec.le_def, BitVec.le_def] at hoff
    have hwrap := hoff.2
    rw [BitVec.toNat_add] at hwrap hmax
    have hn := n.isLt
    have ho := off.isLt
    have hlit : MAXFILE * BSIZE = 274432 := rfl
    omega
  apply (writeLoop_billed src _ _ 0 _ x hend).bind
  rintro ⟨off', x1, st1⟩
  dsimp only
  split
  · exact ⟨fun _ => rfl, fun _ => rfl⟩
  · exact Bills.refl

end Billed

end Xv6.Fs
