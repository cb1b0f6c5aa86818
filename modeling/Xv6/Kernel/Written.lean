/-
# Xv6.Kernel.Written — a process written to a file on the disk (`ksuspend` of `kernel/proc.c`, over `filewrite`
and `filewritefromkernel` of `kernel/file.c` and `writei` of `kernel/fs.c`).

In `Kernel.Resumable` a file is a list of bytes.  Here the same calls go to the blocks of an inode, and
`balloc` may have none to give.  Where it has one for every block of the image, a file that is only appended
to stands for such a list (`Stands`): a turn of `writei` that copies its bytes appends them, and one that
fails changes nothing below the size.  So the list model is right about what `readi` finds in the file
afterwards, and the round trip holds on the disk (`suspend_resume`).
-/
import Xv6.Fs.Filewrite
import Xv6.Kernel.RoundTrip

namespace Xv6.Kernel.Written

open Function List
open Fs
open Vm (Byte PageMap Src UProc)

/-! ## The code -/

/-- An open file with an inode: `f->writable`, `f->off`, the copy of the inode, and the store. -/
structure File where
  writable : Bool
  off : BitVec 32
  ip : DiskInode
  store : Store

def userBytes (pt : PageMap) (addr : BitVec 64) : Nat → Option Byte :=
  fun k => Vm.userByte pt (addr + BitVec.ofNat 64 k).toNat

section Code

variable (sb : Superblock) (c : Cid) (i : Nat)

/-- `filewrite(f, addr, n)` and `filewritefromkernel(f, addr, n)`, for a caller that ignores the result. -/
def filewrite (src : Nat → Option Byte) (n : Int) (f : File) : Except FilePanic File := do
  let (_, off, ip, store) ← Fs.filewrite sb c f.writable i src n f.off f.ip f.store
  .ok { f with off := off, ip := ip, store := store }

def writeImage (p : UProc) (f : File) : Except FilePanic File := do
  let hdr := Vm.resumeHdr p
  let f ← filewrite sb c i (source hdr.bytes) 32 f
  let f ← filewrite sb c i (source (List.ofFn p.tf)) 288 f
  let f ← filewrite sb c i (userBytes p.pt 0) hdr.codeSz.toInt f
  filewrite sb c i (userBytes p.pt (BitVec.ofInt 64 (hdr.codeSz.toInt + PGSIZE))) PGSIZE f

/-- `ksuspend(pid, fd, f)` by a process of container `c`, for a file with inode `i`. -/
def ksuspend (procs : Slot → UProc) (pid : Int) (f : File) : Except FilePanic (Int × (Slot → UProc) × File) :=
  match Fin.find? fun q => (procs q).pid == pid with
  | none => .ok (0, procs, f)
  | some q => do
    let f ← writeImage sb c i (procs q) f
    .ok (1, update procs q { procs q with state := .suspended }, f)

end Code

/-! ## Sources -/

section Sources

variable {src : Src} {byte : Nat → Option Byte} {n tot m : Nat}

/-- A copy of some of the `n` bytes gives them if all can be read, and fails otherwise. -/
def Agree (src : Src) (byte : Nat → Option Byte) (n : Nat) : Prop :=
  ∀ tot m, tot + m ≤ n → src tot m =
    if ∀ k < m, (byte (tot + k)).isSome then some (bytesOf (fun k => byte (tot + k)) m) else none

theorem agree_kernel (bs : List Byte) : Agree (Vm.fromKernel bs) (source bs) bs.length := by
  intro tot m hm
  rw [if_pos fun k hk => isSome_source (by omega), bytesOf_source hm]
  rfl

theorem agree_user (pt : PageMap) (addr : BitVec 64) (hn : n ≤ 2147483648) :
    Agree (Vm.fromUser pt addr) (userBytes pt addr) n := by
  intro tot m hm
  have hmax : Vm.MAXVA = 274877906944 := rfl
  unfold Vm.fromUser Vm.copyin
  rw [Vm.copyinLoop_eq m (le_refl m)]
  have hbyte : ∀ k, userBytes pt addr (tot + k) = Vm.userByte pt (addr + BitVec.ofNat 64 tot + BitVec.ofNat 64 k).toNat := by
    intro k
    rw [userBytes, BitVec.ofNat_add, BitVec.add_assoc]
  simp only [hbyte]
  generalize addr + BitVec.ofNat 64 tot = a
  by_cases hlow : a.toNat < Vm.MAXVA
  · have hadd : ∀ k, k < m → (a + BitVec.ofNat 64 k).toNat = a.toNat + k := by
      intro k hk
      rw [BitVec.toNat_add, BitVec.toNat_ofNat, Nat.mod_eq_of_lt (a := k) (by omega), Nat.mod_eq_of_lt (by omega)]
    have hbytes : bytesOf (fun k => Vm.userByte pt (a + BitVec.ofNat 64 k).toNat) m =
        (range m).map fun k => (Vm.userByte pt (a.toNat + k)).getD 0 := by
      apply map_congr_left
      intro k hk
      dsimp only
      rw [hadd k (mem_range.mp hk)]
    rw [hbytes]
    apply if_congr _ rfl rfl
    exact forall₂_congr fun k hk => by rw [hadd k hk]
  · rcases Nat.eq_zero_or_pos m with rfl | hpos
    · rw [if_pos fun k hk => absurd hk (Nat.not_lt_zero k), if_pos fun k hk => absurd hk (Nat.not_lt_zero k)]
      rfl
    · -- the first byte lies above the user's memory
      have hnone : Vm.userByte pt a.toNat = none := by
        unfold Vm.userByte Vm.walkaddr
        rw [if_pos (Nat.not_lt.mp hlow)]
        rfl
      rw [if_neg fun hall => ?_, if_neg fun hall => ?_]
      · have hfirst := hall 0 hpos
        rw [BitVec.add_zero, hnone] at hfirst
        cases hfirst
      · have hfirst := hall 0 hpos
        rw [Nat.add_zero, hnone] at hfirst
        cases hfirst

theorem Agree.shift (h : Agree src byte n) {done n1 : Nat} (hn : done + n1 ≤ n) :
    Agree (fun tot m => src (done + tot) m) (fun k => byte (done + k)) n1 := by
  intro tot m hm
  simp only [← Nat.add_assoc]
  exact h (done + tot) m (by omega)

theorem reach_lt (h : ¬ ∀ k < m, (byte (tot + k)).isSome) : reach (fun k => (byte k).isSome) tot m < m := by
  have hpre := takeWhile_prefix (fun k => (byte (tot + k)).isSome) (l := range m)
  refine Nat.lt_of_le_of_ne (hpre.length_le.trans_eq (length_range ..)) fun heq => h fun k hk => ?_
  have hall := hpre.eq_of_length (heq.trans (length_range ..).symm)
  exact takeWhile_eq_self_iff.mp hall k (mem_range.mpr hk)

end Sources

/-! ## The loop of `writei` -/

section Loop

variable {sb : Superblock} {c : Cid} {tab : Nat → Option DiskInode} {i N : Nat} {x x' : DiskInode} {d d' : Disk}
  {a : BlockNo} {data : List Byte} {st : Store}

/-- **A turn at the end of the file** appends the bytes that it has copied; of these `k` are looked at. -/
theorem holds_copy {m k : Nat} {f : Nat → Byte} (h : Got sb tab i x x' d d' (data.length / BSIZE) a) (hx : tab i = some x)
    (hbn : data.length / BSIZE < MAXFILE) (hm : data.length % BSIZE + m ≤ BSIZE) (hold : x.Holds d data) (hk : k ≤ m) :
    x'.Holds (update d' a (overwrite (d' a) (data.length % BSIZE) m f)) (data ++ (range k).map f) := by
  have hlen : (data ++ (range k).map f).length = data.length + k := by
    rw [length_append, length_map, length_range]
  have hbyte : ∀ p, p < data.length + k → _ := fun p hp => h.copy_byte hx hbn hm f (p := p) (by
    by_cases hlow : p < data.length
    · exact .inl (hold.mapped.backs hlow)
    · exact .inr (by omega))
  refine ⟨DiskInode.mappedTo_of_backs fun p hp => (hbyte p (hlen ▸ hp)).1, fun p hp => ?_⟩
  rw [(hbyte p (hlen ▸ hp)).2]
  by_cases hlow : p < data.length
  · rw [if_neg (by omega), getElem_append_left hlow]
    exact hold.byte_eq p hlow
  · rw [if_pos (by omega), getElem_append_right (Nat.not_lt.mp hlow), getElem_map, getElem_range]

theorem bmap_within {s : Finset Nat} {bn : Nat} (hs : st.Sated) (hx : tab i = some x)
    (hsound : Sound sb (names tab st.disk) st.disk) (hfile : ∀ b ∈ s, b < MAXFILE) (hbn : bn ∈ s)
    (h : Supply sb c st (needed x st.disk s)) :
    ∃ a x1 st1, bmap sb c x bn st = .ok (a, x1, st1) ∧ st1.Sated ∧ Got sb tab i x x1 st.disk st1.disk bn a ∧
      ∀ blk, Supply sb c { st1 with disk := update st1.disk a blk } (needed x1 (update st1.disk a blk) s) := by
  have hsub := Finset.singleton_subset_iff.mpr hbn
  obtain ⟨a, x1, st1, hb, hs1⟩ := bmap_runs hs hx hsound (hfile bn hbn) (h.mono (needed_mono x st.disk hsub))
  have hgot := bmap_got hb hs1 hx hsound
  refine ⟨a, x1, st1, hb, hs1, hgot, fun blk => ?_⟩
  have hfills := (hgot.fills (hfile bn hbn)).congr (hgot.addrAt_write blk)
  have hsplit := hfills.needed_union hfile
  rw [Finset.union_eq_right.mpr hsub] at hsplit
  rw [hsplit] at h
  exact ((bmap_spends hb hs1 hx hsound).trans (hgot.write_spends blk) _).mp h

/-- **The loop of `writei` at the end of the file** leaves the bytes that the list model has. -/
theorem writeLoop_holds {src : Src} {byte : Nat → Option Byte} {n : Nat} (hsrc : Agree src byte n) (hN : N ≤ 274432)
    (fuel : Nat) : ∀ {tab : Nat → Option DiskInode} {tot : Nat} {x : DiskInode} {st : Store} {data : List Byte},
    st.Sated → tab i = some x → Sound sb (names tab st.disk) st.disk → x.Holds st.disk data →
    data.length + (n - tot) ≤ N → Supply sb c st (needed x st.disk (blocksOf 0 N)) →
    ∃ data' x' st', Vm.writeLoop src n fuel tot data.length data = data' ∧
      writeLoop sb c byte n fuel tot data.length x st = .ok (data'.length, x', st') ∧ st'.Sated ∧
      Grows sb tab i x x' st.disk st'.disk ∧ x'.Holds st'.disk data' ∧
      Supply sb c st' (needed x' st'.disk (blocksOf 0 N)) ∧
      data.length ≤ data'.length ∧ data'.length ≤ data.length + (n - tot) := by
  induction fuel with
  | zero =>
    intro tab tot x st data hs hx hsound hold _ h
    exact ⟨data, x, st, rfl, rfl, hs, .refl hsound hx, hold, h, le_refl _, Nat.le_add_right ..⟩
  | succ fuel ih =>
    intro tab tot x st data hs hx hsound hold hend h
    by_cases hlt : tot < n
    swap
    · refine ⟨data, x, st, ?_, writeLoop_done hlt .., hs, .refl hsound hx, hold, h, le_refl _, Nat.le_add_right ..⟩
      rw [Vm.writeLoop, if_neg hlt]
    have hfile : ∀ b ∈ blocksOf 0 N, b < MAXFILE := fun b hb => lt_of_mem_blocksOf hb (by omega)
    have hmem : data.length / BSIZE ∈ blocksOf 0 N :=
      Finset.mem_image.mpr ⟨data.length, Finset.mem_Ico.mpr ⟨Nat.zero_le _, by omega⟩, rfl⟩
    obtain ⟨a, x1, st1, hb, hs1, hgot, hsup⟩ := bmap_within hs hx hsound hfile hmem h
    have hblkend := turnLen_block n tot data.length
    have hle := turnLen_le n tot data.length
    have hpos := turnLen_pos hlt data.length
    rw [Vm.writeLoop, writeLoop, if_pos hlt, if_pos hlt, hb]
    unfold turnLen at hblkend hle hpos
    simp only [bind, Except.bind]
    generalize min (n - tot) (BSIZE - data.length % BSIZE) = m at *
    have hgrows : ∀ blk, Grows sb tab i x x1 st.disk (update st1.disk a blk) := fun blk => hgot.grows.trans (hgot.write blk)
    have hs2 : ∀ blk, Store.Sated { st1 with disk := update st1.disk a blk } := fun _ => hs1
    rw [hsrc tot m (by omega)]
    by_cases hall : ∀ k < m, (byte (tot + k)).isSome
    · rw [if_pos hall, reach_of_isSome hall, if_neg (Nat.lt_irrefl m)]
      dsimp only
      have hheld := holds_copy (f := fun k => (byte (tot + k)).getD 0) hgot hx (bmap_lt hb) hblkend hold (le_refl m)
      generalize hbs : (range m).map (fun k => (byte (tot + k)).getD 0) = bs at hheld
      have hbs' : bytesOf (fun k => byte (tot + k)) m = bs := hbs
      have hlen : (data ++ bs).length = data.length + m := by
        rw [length_append, ← hbs, length_map, length_range]
      obtain ⟨data', x', st', hlist, hrun, hs', hgrows', hold', hsup', hlow, hhigh⟩ := @ih _ (tot + m) x1 _
        (data ++ bs) (hs2 _) (update_self i (some x1) tab) (hgrows _).sound hheld (by omega) (hsup _)
      rw [hlen] at hlist hrun hlow hhigh
      rw [hbs', Vm.splice_end rfl]
      exact ⟨data', x', st', hlist, hrun, hs', (hgrows _).trans hgrows', hold', hsup', by omega, by omega⟩
    · rw [if_neg hall, if_pos (reach_lt hall)]
      have hheld := holds_copy (m := reach (fun k => (byte k).isSome) tot m) (f := fun k => (byte (tot + k)).getD 0) hgot hx
        (bmap_lt hb) (by have := reach_lt hall; omega) hold (Nat.zero_le _)
      rw [range_zero, map_nil, append_nil] at hheld
      exact ⟨data, x1, _, rfl, rfl, hs2 _, hgrows _, hheld, hsup _, le_refl _, Nat.le_add_right ..⟩

end Loop

/-! ## A file and its bytes -/

/-- The inode has the bytes of `g`, all of them on the disk, the offset is at their end or
behind it, and there are blocks for `N` bytes. -/
structure Stands (sb : Superblock) (c : Cid) (i N : Nat) (f : File) (g : Vm.File) : Prop where
  writable : f.writable = g.writable
  off : f.off.toNat = g.off
  behind : g.data.length ≤ g.off
  short : g.off ≤ 274432
  content : f.ip.content f.store.disk = g.data
  mapped : f.ip.MappedTo f.store.disk f.ip.size.toNat
  self : inodesOf sb f.store.disk i = some f.ip
  sound : Sound sb (names (inodesOf sb f.store.disk) f.store.disk) f.store.disk
  sated : f.store.Sated
  supply : Supply sb c f.store (needed f.ip f.store.disk (blocksOf 0 N))

/-- What `readi` gives is what the bytes `data` have there. -/
def Reads (sb : Superblock) (f : File) (data : List Byte) : Prop :=
  ∀ (c : Cid) (off n : BitVec 32), off.toNat + n.toNat < 2 ^ 32 → readi sb c f.ip anywhere off n f.store =
    .ok ((Vm.readi data off.toNat n.toNat).1, (Vm.readi data off.toNat n.toNat).2, f.ip, f.store)

namespace Stands

variable {sb : Superblock} {c : Cid} {i N : Nat} {f : File} {g : Vm.File} {src : Src} {byte : Nat → Option Byte} {n : Nat}

section

variable (h : Stands sb c i N f g)
include h

theorem size : f.ip.size.toNat = g.data.length := by rw [← h.content, length_content]

theorem holds : f.ip.Holds f.store.disk g.data := by
  rw [← h.content]
  exact h.mapped.holds

theorem reads : Reads sb f g.data := by
  intro c' off m hsum
  by_cases hoff : off.toNat ≤ g.data.length
  · rw [Vm.readi_eq hoff]
    exact readi_file h.holds h.size hoff hsum
  · have hlt : f.ip.size < off := by
      rw [BitVec.lt_def, h.size]
      omega
    unfold Fs.readi Vm.readi
    rw [if_pos (.inl hlt), if_pos (Nat.not_le.mp hoff)]

/-- **`writei`**: a request that the list model refuses is refused; one that it answers is answered the same, and
the file stands for the list again. -/
theorem writei (hsrc : Agree src byte n) (hpos : 0 < n) (hn : n ≤ 3072) (hfit : min (g.off + n) 274432 ≤ N) (hN : N ≤ 274432) :
    (Vm.writei src g.off n g.data = (-1, g.data) ∧
      Fs.writei sb c i f.ip byte f.off (BitVec.ofNat 32 n) f.store = .ok (-1, f.ip, f.store)) ∨
    ∃ data' ip store, Vm.writei src g.off n g.data = ((n : Int), data') ∧
      Fs.writei sb c i f.ip byte f.off (BitVec.ofNat 32 n) f.store = .ok (n, ip, store) ∧
      Stands sb c i N { f with off := f.off + BitVec.ofInt 32 n, ip := ip, store := store }
        { g with off := g.off + n, data := data' } := by
  have hmax : MAXFILE * BSIZE = 274432 := rfl
  have hoff := h.off
  have hshort := h.short
  have hsize := h.size
  have hnat : (BitVec.ofNat 32 n).toNat = n := by
    rw [BitVec.toNat_ofNat, Nat.mod_eq_of_lt (by omega)]
  have hsum : (f.off + BitVec.ofNat 32 n).toNat = g.off + n := by
    rw [BitVec.toNat_add, hnat, Nat.mod_eq_of_lt (by omega), hoff]
  by_cases hahead : g.data.length < g.off
  · left
    unfold Vm.writei Fs.writei
    rw [if_pos hahead, if_pos (.inl (by rw [BitVec.lt_def]; omega))]
    exact ⟨rfl, rfl⟩
  by_cases hbig : 274432 < g.off + n
  · left
    unfold Vm.writei Fs.writei
    rw [if_neg hahead, if_pos (by rwa [hmax]), if_neg (by rw [not_or, BitVec.lt_def, BitVec.lt_def]; omega),
      if_pos (by rwa [hmax, hsum])]
    exact ⟨rfl, rfl⟩
  right
  have hend : g.off = g.data.length := by
    have hbehind := h.behind
    omega
  obtain ⟨data', x1, st1, hlist, hloop, hs1, hgrows, hold, hsup, hlow, hhigh⟩ := writeLoop_holds hsrc hN n h.sated
    h.self h.sound h.holds (show g.data.length + (n - 0) ≤ N by omega) h.supply
  rw [Nat.sub_zero] at hhigh
  obtain ⟨hi, -, -⟩ := inodesOf_eq_some.mp h.self
  have hfields : x1.size = f.ip.size ∧ x1.type = f.ip.type := by rw [hgrows.fields]; exact ⟨rfl, rfl⟩
  have hlen : (resized x1 data'.length).size.toNat = data'.length := by
    rw [resized_size x1 (by omega), hfields.1]
    omega
  have hover : overlay (f.ip.content f.store.disk) 0 data' = data' := by
    unfold overlay
    rw [take_zero, nil_append, h.content, drop_eq_nil_of_le (by omega), append_nil]
  have hrewrites : Rewrites sb i f.ip (resized x1 data'.length) 0 data' f.store.disk _ :=
    hgrows.rewrites h.sound h.self (resized_addrs ..) ((resized_type ..).trans hfields.2) (by rw [hlen]; exact hold.mapped)
      (fun p hp => by
        rw [hlen] at hp
        rw [hover, hold.byte_eq p hp, getD_eq_getElem _ _ hp])
      (by rw [hover, hlen])
  refine ⟨data', resized x1 data'.length, iupdate sb i (resized x1 data'.length) st1, ?_, ?_, h.writable, ?_, ?_, ?_,
    hrewrites.content.trans hover, hrewrites.mapped, hrewrites.self, hrewrites.sound, hs1, ?_⟩
  · unfold Vm.writei
    rw [if_neg hahead, if_neg (by omega), hend, hlist]
  · have hgt : 0 < BitVec.ofNat 32 n := by
      rw [BitVec.lt_def, hnat]
      exact hpos
    rw [writei_eq (by omega) (by omega), hnat, hoff, hend, hloop, BitVec.toInt_eq_toNat_of_lt (by omega), hnat]
    exact if_pos hgt
  · show (f.off + BitVec.ofInt 32 n).toNat = g.off + n
    rw [BitVec.ofInt_natCast, hsum]
  · show data'.length ≤ g.off + n
    omega
  · show g.off + n ≤ 274432
    omega
  · have hsame : Spends sb c st1 (iupdate sb i (resized x1 data'.length) st1) 0 :=
      .of_same (fun e he => bit_writeInode hi e he) rfl
    show Supply sb c (iupdate sb i (resized x1 data'.length) st1)
      (needed (resized x1 data'.length) (writeInode sb i (resized x1 data'.length) st1.disk) (blocksOf 0 N))
    rw [needed_congr fun ix => hgrows.addrAt_resized hi data'.length ix]
    rw [← Nat.zero_add (needed x1 st1.disk (blocksOf 0 N))] at hsup
    exact (hsame _).mp hsup

end

theorem filewriteLoop (hsrc : Agree src byte n) (hN : N ≤ 274432) (fuel : Nat) : ∀ {done : Nat} {f : File} {g : Vm.File},
    Stands sb c i N f g → min (g.off + (n - done)) 274432 ≤ N →
    ∃ done' off ip store g', Vm.filewriteLoop src n fuel done g = (done', g') ∧
      Fs.filewriteLoop sb c i byte n fuel done f.off f.ip f.store = .ok (done', off, ip, store) ∧
      Stands sb c i N { f with off := off, ip := ip, store := store } g' ∧ g'.off ≤ g.off + (n - done) := by
  induction fuel with
  | zero =>
    intro done f g h _
    exact ⟨done, f.off, f.ip, f.store, g, rfl, rfl, h, Nat.le_add_right ..⟩
  | succ fuel ih =>
    intro done f g h hfit
    rw [Vm.filewriteLoop, Fs.filewriteLoop]
    by_cases hlt : done < n
    swap
    · rw [if_neg hlt, if_neg hlt]
      exact ⟨done, f.off, f.ip, f.store, g, rfl, rfl, h, Nat.le_add_right ..⟩
    have hmax : Vm.maxWrite = 3072 := rfl
    rw [if_pos hlt, if_pos hlt, show maxWrite = Vm.maxWrite from rfl]
    dsimp only
    generalize hn1 : min (n - done) Vm.maxWrite = n1
    have hnpos : (0 : Int) < n1 := by omega
    have hchunk : Agree (fun tot m => src (done + tot) m) (fun k => byte (done + k)) n1 := hsrc.shift (by omega)
    obtain ⟨hlist, hrun⟩ | ⟨data', ip, store, hlist, hrun, hnext⟩ := h.writei hchunk (by omega) (by omega) (by omega) hN
    · rw [hlist, hrun]
      simp only [passed, bind, Except.bind]
      exact ⟨done, f.off, f.ip, f.store, _, rfl, rfl, h, Nat.le_add_right ..⟩
    · rw [hlist, hrun]
      simp only [passed, bind, Except.bind]
      rw [if_neg (Int.not_lt.mpr hnpos.le), if_pos hnpos, if_neg (Int.not_lt.mpr hnpos.le), if_neg fun hne => hne rfl]
      obtain ⟨done', off, ip', store', g', hlist', hrun', hstands, hoff⟩ := @ih (done + n1) _ _ hnext
        (by dsimp only; omega)
      dsimp only at hoff
      exact ⟨done', off, ip', store', g', hlist', hrun', hstands, by omega⟩

theorem filewrite (h : Stands sb c i N f g) {n : Int} (hsrc : Agree src byte n.toNat) (hN : N ≤ 274432)
    (hfit : min (g.off + (n.toNat - 0)) 274432 ≤ N) :
    ∃ f' g', Written.filewrite sb c i byte n f = .ok f' ∧ (Vm.filewrite src n g).2 = g' ∧ Stands sb c i N f' g' ∧
      g'.off ≤ g.off + n.toNat := by
  unfold Written.filewrite Fs.filewrite Vm.filewrite
  by_cases hw : g.writable = true
  · obtain ⟨done, off, ip, store, g', hlist, hrun, hstands, hoff⟩ := filewriteLoop hsrc hN n.toNat h hfit
    rw [if_pos (h.writable.trans hw), if_neg (by rw [hw]; decide), hlist, hrun]
    exact ⟨_, g', rfl, rfl, hstands, hoff⟩
  · rw [if_neg (by rwa [h.writable]), if_pos (Bool.eq_false_of_not_eq_true hw)]
    exact ⟨_, g, rfl, rfl, h, Nat.le_add_right ..⟩

end Stands

/-! ## The round trip -/

/-- How long an image becomes if no copy fails: the header, the registers, the code and the stack, or as much as fits
into a file. -/
def imageLen (p : UProc) : Nat := min (320 + (Vm.resumeHdr p).codeSz.toInt.toNat + PGSIZE) (MAXFILE * BSIZE)

/-- An empty file that can be written, and a block map in order. -/
structure Empty (sb : Superblock) (i : Nat) (f : File) : Prop where
  writable : f.writable = true
  off : f.off = 0
  size : f.ip.size = 0
  self : inodesOf sb f.store.disk i = some f.ip
  sound : Sound sb (names (inodesOf sb f.store.disk) f.store.disk) f.store.disk
  sated : f.store.Sated

section RoundTrip

variable {sb : Superblock} {c : Cid} {i : Nat} {f : File} {g : Vm.File}

/-- **The four writes** leave what the list model has. -/
theorem Stands.writeImage {p : UProc} (h : Stands sb c i (imageLen p) f g) (hstart : g.off = 0) :
    ∃ f', Written.writeImage sb c i p f = .ok f' ∧ Stands sb c i (imageLen p) f' (Vm.writeImage p g) := by
  have hP : (PGSIZE : Int).toNat = 4096 := rfl
  have hlen : imageLen p = min (320 + (Vm.resumeHdr p).codeSz.toInt.toNat + 4096) 274432 := rfl
  have hN : imageLen p ≤ 274432 := by omega
  have hcode : (Vm.resumeHdr p).codeSz.toInt.toNat ≤ 2147483648 := by
    have hlt := (Vm.resumeHdr p).codeSz.toInt_lt
    omega
  have hstack : ∀ k, k ≤ 320 + (Vm.resumeHdr p).codeSz.toInt.toNat → min (k + 4096) 274432 ≤ imageLen p := fun k hk => by omega
  have hhdr := agree_kernel (Vm.resumeHdr p).bytes
  have htf := agree_kernel (ofFn p.tf)
  rw [Vm.ResumeHdr.length_bytes] at hhdr
  rw [length_ofFn] at htf
  generalize imageLen p = N at *
  obtain ⟨f1, g1, hrun1, hlist1, h1, hoff1⟩ := h.filewrite (n := 32) hhdr hN (by omega)
  obtain ⟨f2, g2, hrun2, hlist2, h2, hoff2⟩ := h1.filewrite (n := 288) htf hN (by omega)
  obtain ⟨f3, g3, hrun3, hlist3, h3, hoff3⟩ := h2.filewrite (agree_user p.pt 0 hcode) hN (by omega)
  obtain ⟨f4, g4, hrun4, hlist4, h4, -⟩ := h3.filewrite (n := PGSIZE)
    (agree_user p.pt (BitVec.ofInt 64 ((Vm.resumeHdr p).codeSz.toInt + PGSIZE)) (by omega)) hN
    (hstack _ (by omega))
  have himage : Vm.writeImage p g = g4 := by
    unfold Vm.writeImage
    simp only [hlist1, hlist2, hlist3]
    exact hlist4
  rw [himage]
  refine ⟨f4, ?_, h4⟩
  unfold Written.writeImage
  simp only [hrun1, hrun2, hrun3, bind, Except.bind]
  exact hrun4

theorem Empty.stands {N : Nat} (h : Empty sb i f) (hsupply : Supply sb c f.store (needed f.ip f.store.disk (blocksOf 0 N))) :
    Stands sb c i N f ⟨true, 0, []⟩ where
  writable := h.writable
  off := by
    rw [h.off]
    rfl
  behind := le_refl 0
  short := Nat.zero_le _
  content := by
    unfold DiskInode.content
    rw [h.size]
    rfl
  mapped bn hbn := by
    rw [h.size] at hbn
    exact absurd hbn (Nat.not_lt_zero _)
  self := h.self
  sound := h.sound
  sated := h.sated
  supply := hsupply

/-- **`ksuspend` on the disk** does what it does on lists. -/
theorem ksuspend_stands {procs : Slot → UProc} {pid : Int} {s : Slot}
    (hfind : Fin.find? (fun q => (procs q).pid == pid) = some s) (hempty : Empty sb i f)
    (hsupply : Supply sb c f.store (needed f.ip f.store.disk (blocksOf 0 (imageLen (procs s))))) :
    ∃ procs' f' g', ksuspend sb c i procs pid f = .ok (1, procs', f') ∧ Vm.ksuspend procs pid ⟨true, 0, []⟩ = (1, procs', g') ∧
      g' = Vm.writeImage (procs s) ⟨true, 0, []⟩ ∧ Stands sb c i (imageLen (procs s)) f' g' := by
  obtain ⟨f', hrun, hstands⟩ := (hempty.stands hsupply).writeImage rfl
  refine ⟨update procs s { procs s with state := .suspended }, f', _, ?_, ?_, rfl, hstands⟩
  · unfold ksuspend
    rw [hfind]
    simp only [hrun, bind, Except.bind]
  · unfold Vm.ksuspend
    rw [hfind]

/-- **When a suspended process can be resumed.** `ksuspend` to an empty file, with the blocks for it, returns 1; and `kresume` of
what is read from the file gives name, tracing flag, size and memory back exactly when the process is whole and there is
memory for it. -/
theorem suspend_resume {procs : Slot → UProc} {pid : Int} {s : Slot} {p0 : UProc}
    (hfind : Fin.find? (fun q => (procs q).pid == pid) = some s) (hreach : Vm.Reached p0 (procs s)) (hempty : Empty sb i f)
    (hsupply : Supply sb c f.store (needed f.ip f.store.disk (blocksOf 0 (imageLen (procs s)))))
    (mem : Vm.Room) (hlimit : mem.limit ≤ Vm.NPAGES) (tables : Bool) (q : UProc) :
    ∃ procs' f' data, ksuspend sb c i procs pid f = .ok (1, procs', f') ∧ Reads sb f' data ∧
      ((∃ q', Vm.kresume mem tables data q = .ok q' ∧ Vm.Restored (procs s) q') ↔
        tables = true ∧ (procs s).sz / PGSIZE ≤ mem.limit ∧ Vm.Whole (procs s)) := by
  obtain ⟨procs', f', g', hrun, -, rfl, hstands⟩ := ksuspend_stands hfind hempty hsupply
  exact ⟨procs', f', _, hrun, hstands.reads, Vm.restored_iff_whole hreach.laid hlimit q⟩

end RoundTrip

theorem find_first {p : UProc} (hpid : p.pid = 1) : Fin.find? (fun _ : Slot => p.pid == 1) = some 0 :=
  Fin.find?_eq_some_iff.mpr ⟨by rw [hpid]; decide, fun j hj => absurd hj (Fin.not_lt_zero j)⟩

def newFile : File where
  writable := true
  off := 0
  ip := { Icache.newInode .file with nlink := 1 }
  store := ⟨writeInode mkfsSb 2 { Icache.newInode .file with nlink := 1 } (blank mkfsSb), fun _ => rootCont, false, false⟩

theorem newFile_empty : Empty mkfsSb 2 newFile where
  writable := rfl
  off := rfl
  size := rfl
  self := by
    unfold newFile
    dsimp only
    rw [inodesOf_writeInode (by decide), if_neg (by decide), update_self]
  sound := (wrote_empty (wf_blank (by decide)) (by decide) (by decide) (fun _ => rfl) rfl).wf.sound
  sated := ⟨rfl, rfl⟩

theorem newFile_supply {N : Nat} (hN : N ≤ 13312) :
    Supply mkfsSb 0 newFile.store (needed newFile.ip newFile.store.disk (blocksOf 0 N)) := by
  apply supply_root
  · intro e hlow he
    rw [bit_writeInode (by decide) e he, bit_blank e hlow he]
  have hsub : blocksOf 0 N ⊆ Finset.range 13 := by
    intro bn hbn
    obtain ⟨p, hp, rfl⟩ := Finset.mem_image.mp hbn
    rw [Finset.mem_Ico] at hp
    rw [Finset.mem_range]
    show p / 1024 < 13
    omega
  have hcard := Finset.card_le_card ((Finset.filter_subset (fun bn => newFile.ip.addrAt newFile.store.disk (.ofBlock bn) = 0)
    (blocksOf 0 N)).trans hsub)
  rw [Finset.card_range] at hcard
  unfold needed
  split <;> omega

theorem imageLen_le {p : UProc} (hsz : p.sz = 12288 ∨ p.sz = 16384) : imageLen p ≤ 13312 := by
  show min (320 + (BitVec.ofInt 32 (p.sz - 2 * PGSIZE)).toInt.toNat + PGSIZE) (MAXFILE * BSIZE) ≤ 13312
  rcases hsz with hsz | hsz <;> rw [hsz] <;> decide

/-- A process of one page of code, suspended to a new file and resumed. -/
theorem suspend_resume_onePage : ∃ (p p0 : UProc) (procs' : Slot → UProc) (f' : File) (data : List Byte) (q' : UProc),
    Vm.Reached p0 p ∧ Empty mkfsSb 2 newFile ∧ ksuspend mkfsSb 0 2 (fun _ => p) 1 newFile = .ok (1, procs', f') ∧
    Reads mkfsSb f' data ∧ Vm.kresume Vm.allPages true data Vm.blankProc = .ok q' ∧ Vm.Restored p q' := by
  obtain ⟨p, hexec, hpid, hwhole, hsz⟩ := Vm.exec_onePage
  have hreach : Vm.Reached p p := ⟨⟨_, _, _, _, _, _, le_refl _, hexec⟩, .refl⟩
  have hmem : p.sz / PGSIZE ≤ Vm.NPAGES := by rw [hsz]; decide
  obtain ⟨procs', f', data, hrun, hreads, hiff⟩ := @suspend_resume mkfsSb 0 2 newFile (fun _ => p) 1 0 p (find_first hpid) hreach
    newFile_empty (newFile_supply (imageLen_le (.inl hsz))) Vm.allPages (le_refl _) true Vm.blankProc
  obtain ⟨q', hresume, hrestored⟩ := hiff.mpr ⟨rfl, hmem, hwhole⟩
  exact ⟨p, p, procs', f', data, q', hreach, newFile_empty, hrun, hreads, hresume, hrestored⟩

/-- After `sbrk(4096)` the image is short: `kresume` does not give the process back, however much memory and
however many blocks there are. -/
theorem suspend_resume_fails : ∃ (p p0 : UProc) (procs' : Slot → UProc) (f' : File) (data : List Byte),
    Vm.Reached p0 p ∧ Empty mkfsSb 2 newFile ∧ ksuspend mkfsSb 0 2 (fun _ => p) 1 newFile = .ok (1, procs', f') ∧
    Reads mkfsSb f' data ∧ ¬ ∃ q', Vm.kresume Vm.allPages true data Vm.blankProc = .ok q' ∧ Vm.Restored p q' := by
  obtain ⟨p0, p, hexec, hstep, hpid, hsz, huser⟩ := Vm.sbrk_onePage
  have hreach : Vm.Reached p0 p := ⟨⟨_, _, _, _, _, _, le_refl _, hexec⟩, Lib.Reach.refl.next (le_refl _) hstep⟩
  obtain ⟨procs', f', g', hrun, -, rfl, hstands⟩ := @ksuspend_stands mkfsSb 0 2 newFile (fun _ => p) 1 0 (find_first hpid)
    newFile_empty (newFile_supply (imageLen_le (.inr hsz)))
  refine ⟨p, p0, procs', f', _, hreach, newFile_empty, hrun, hstands.reads, fun h => ?_⟩
  have hguard := ((Vm.restored_iff_whole hreach.laid (le_refl _) Vm.blankProc).mp h).2.2.guard
  rw [huser] at hguard
  cases hguard

end Xv6.Kernel.Written
