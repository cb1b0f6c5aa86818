/-
# Xv6.Kernel.RoundTrip — when a suspended process can be resumed.

The image of a process is a header, the registers, the code and data below the guard page, and the stack.
It is complete exactly when the guard page is the second page from the top (`Whole`), which is what `exec`
leaves and what every `sbrk` that changes the size undoes, and when it fits into a file
(`restored_iff_whole`).

Of writes that fail nothing has to be known: the header says which pages `kresume` asks the file for, the file is
never longer than a file can be, and the page that `kresume` closes is one the process could read.
-/
import Xv6.Kernel.Resumable

namespace Xv6.Kernel.Vm

open Function List
open Fs (MAXFILE MAXOPBLOCKS)

/-! ## Writes -/

section Writes

variable {src : Src} {bs data : List Byte} {n k : Nat} {f : File}

def Src.Gives (src : Src) (bs : List Byte) : Prop :=
  ∀ tot m, tot + m ≤ bs.length → src tot m = some ((bs.drop tot).take m)

/-- A source that gives of its `n` bytes as many as it is asked for, if any. -/
def Src.Exact (src : Src) (n : Nat) : Prop := ∀ tot m bs, tot + m ≤ n → src tot m = some bs → bs.length = m

theorem fromKernel_gives (bs : List Byte) : (fromKernel bs).Gives bs := fun _ _ _ => rfl

theorem Src.Gives.exact (h : src.Gives bs) : src.Exact bs.length := by
  intro tot m new hm hcopy
  rw [h tot m hm] at hcopy
  rw [← Option.some.inj hcopy, length_take, length_drop]
  omega

theorem Src.Gives.chunk (h : src.Gives bs) {i m : Nat} (hm : i + m ≤ bs.length) :
    Src.Gives (fun tot m => src (i + tot) m) ((bs.drop i).take m) := by
  intro tot k hk
  rw [length_take, length_drop] at hk
  dsimp only
  rw [h (i + tot) k (by omega), drop_take, drop_drop, take_take]
  congr 2
  omega

theorem splice_end (h : data.length = n) (bs : List Byte) : splice data n bs = data ++ bs := by
  unfold splice
  rw [← h, take_length, drop_eq_nil_of_le (Nat.le_add_right _ _), append_nil]

/-- The loop of `writei` appends, and what it appends is what the source has, if that has all the bytes. -/
theorem writeLoop_appends (hsrc : src.Exact n) (fuel : Nat) : ∀ {tot : Nat} (data : List Byte), n - tot ≤ fuel → tot ≤ n →
    ∃ ext, writeLoop src n fuel tot data.length data = data ++ ext ∧ ext.length ≤ n - tot ∧
      ∀ bs, src.Gives bs → bs.length = n → ext = bs.drop tot := by
  induction fuel with
  | zero =>
    intro tot data hfuel _
    exact ⟨[], (append_nil _).symm, Nat.zero_le _, fun bs _ hn => (drop_eq_nil_of_le (by omega)).symm⟩
  | succ fuel ih =>
    intro tot data hfuel htot
    unfold writeLoop
    by_cases hlt : tot < n
    swap
    · rw [if_neg hlt]
      exact ⟨[], (append_nil _).symm, Nat.zero_le _, fun bs _ hn => (drop_eq_nil_of_le (by omega)).symm⟩
    have hB : BSIZE = 1024 := rfl
    have hmod : data.length % BSIZE < BSIZE := Nat.mod_lt _ (by decide)
    rw [if_pos hlt]
    dsimp only
    generalize hm : min (n - tot) (BSIZE - data.length % BSIZE) = m
    cases hcopy : src tot m with
    | none =>
      refine ⟨[], (append_nil _).symm, Nat.zero_le _, fun bs hgives hn => ?_⟩
      rw [hgives tot m (by omega)] at hcopy
      cases hcopy
    | some new =>
      have hnew := hsrc tot m new (by omega) hcopy
      obtain ⟨ext, hrun, hlen, hall⟩ := @ih (tot + m) (data ++ new) (by omega) (by omega)
      rw [length_append, hnew] at hrun
      dsimp only
      rw [splice_end rfl, hrun]
      refine ⟨new ++ ext, append_assoc .., by rw [length_append]; omega, fun bs hgives hn => ?_⟩
      rw [hgives tot m (by omega)] at hcopy
      rw [hall bs hgives hn, ← Option.some.inj hcopy, ← drop_drop, take_append_drop]

/-- Bytes were added at the end, the file is no longer than a file can be, and the offset is not before its end. -/
structure Appended (f f' : File) : Prop where
  data : ∃ ext, f'.data = f.data ++ ext
  short : f'.data.length ≤ 274432
  behind : f'.data.length ≤ f'.off

theorem filewriteLoop_appends (hsrc : src.Exact n) (fuel : Nat) : ∀ {i : Nat} {f : File}, n - i ≤ fuel → i ≤ n →
    f.data.length ≤ f.off → f.data.length ≤ 274432 → Appended f (filewriteLoop src n fuel i f).2 ∧
      ∀ bs, src.Gives bs → bs.length = n → f.off = f.data.length → f.off + (n - i) ≤ 274432 →
        filewriteLoop src n fuel i f = (n, { f with off := f.off + (n - i), data := f.data ++ bs.drop i }) := by
  have hend : ∀ {f : File}, f.data.length ≤ f.off → f.data.length ≤ 274432 → Appended f f := fun hoff hlen =>
    ⟨⟨[], (append_nil _).symm⟩, hlen, hoff⟩
  induction fuel with
  | zero =>
    intro i f hfuel hi hoff hlen
    refine ⟨hend hoff hlen, fun bs _ hn _ _ => ?_⟩
    rw [drop_eq_nil_of_le (by omega), append_nil, Nat.sub_eq_zero_of_le (by omega), show n = i by omega]
    rfl
  | succ fuel ih =>
    intro i f hfuel hi hoff hlen
    unfold filewriteLoop
    by_cases hlt : i < n
    swap
    · rw [if_neg hlt]
      refine ⟨hend hoff hlen, fun bs _ hn _ _ => ?_⟩
      rw [drop_eq_nil_of_le (by omega), append_nil, Nat.sub_eq_zero_of_le (by omega), show n = i by omega]
      rfl
    have hmax : MAXFILE * BSIZE = 274432 := rfl
    have hpos : maxWrite = 3072 := rfl
    rw [if_pos hlt]
    dsimp only
    generalize hm : min (n - i) maxWrite = m
    unfold writei
    by_cases hpast : f.data.length < f.off
    · rw [if_pos hpast]
      exact ⟨hend hoff hlen, fun bs _ _ heq => absurd heq (Nat.ne_of_gt hpast)⟩
    rw [if_neg hpast]
    by_cases hbig : MAXFILE * BSIZE < f.off + m
    · rw [if_pos hbig]
      exact ⟨hend hoff hlen, fun bs _ _ _ hfits => by omega⟩
    rw [if_neg hbig, show f.off = f.data.length by omega]
    obtain ⟨ext, hrun, hext, hall⟩ := @writeLoop_appends (fun tot m => src (i + tot) m) m
      (fun tot k bs hk => hsrc (i + tot) k bs (by omega)) m 0 f.data (by omega) (Nat.zero_le m)
    rw [hrun]
    dsimp only
    rw [if_neg (by omega)]
    obtain ⟨hrest, hgives⟩ := ih (i := i + m) (f := { f with off := f.data.length + m, data := f.data ++ ext }) (by omega)
      (by omega) (by dsimp only; rw [length_append]; omega) (by dsimp only; rw [length_append]; omega)
    refine ⟨⟨?_, hrest.short, hrest.behind⟩, fun bs hsrc' hn _ hfits => ?_⟩
    · obtain ⟨more, hmore⟩ := hrest.data
      exact ⟨ext ++ more, hmore.trans (append_assoc ..)⟩
    · have hchunk : ((bs.drop i).take m).length = m := by rw [length_take, length_drop]; omega
      have hbytes := hall _ (hsrc'.chunk (by omega)) hchunk
      rw [drop_zero] at hbytes
      rw [hgives bs hsrc' hn (by dsimp only; rw [length_append, hbytes, hchunk]) (by dsimp only; omega), hbytes]
      dsimp only
      rw [append_assoc, ← drop_drop, take_append_drop]
      congr 2
      omega

/-- **`filewrite` appends** what the source has, if the file does not get too long. -/
theorem filewrite_append (hsrc : src.Gives bs) (hw : f.writable = true) (hoff : f.off = f.data.length)
    (hfits : f.data.length + bs.length ≤ 274432) :
    filewrite src bs.length f = ((bs.length : Int), { f with off := f.off + bs.length, data := f.data ++ bs }) := by
  unfold filewrite
  rw [if_neg (by rw [hw]; decide), Int.toNat_natCast, (filewriteLoop_appends hsrc.exact _ (by omega) (Nat.zero_le _)
    hoff.ge (by omega)).2 bs hsrc rfl hoff (by omega)]
  dsimp only
  rw [if_pos rfl, drop_zero, Nat.sub_zero]

/-- **`filewrite` keeps what is there**, whether its copies fail or not. -/
theorem filewrite_appended (n : Int) (hsrc : src.Exact n.toNat) (hoff : f.data.length ≤ f.off) (hlen : f.data.length ≤ 274432) :
    Appended f (filewrite src n f).2 := by
  unfold filewrite
  by_cases hw : f.writable = false
  · rw [if_pos hw]
    exact ⟨⟨[], (append_nil _).symm⟩, hlen, hoff⟩
  · rw [if_neg hw]
    exact (filewriteLoop_appends hsrc _ (by omega) (Nat.zero_le _) hoff hlen).1

end Writes

/-! ## Copies from user memory -/

section Copies

variable {pt : PageMap}

theorem page_floor (a : Nat) : a / PGSIZE * PGSIZE ≤ a ∧ a < a / PGSIZE * PGSIZE + 4096 := by
  show a / 4096 * 4096 ≤ a ∧ a < a / 4096 * 4096 + 4096
  omega

theorem userByte_add {a k : Nat} {page : Page} (hwalk : walkaddr pt (a / PGSIZE * PGSIZE) = some page)
    (hk : a - a / PGSIZE * PGSIZE + k < PGSIZE) : userByte pt (a + k) = some (page.bytes (a - a / PGSIZE * PGSIZE + k)) := by
  have hP : PGSIZE = 4096 := rfl
  have hmax : MAXVA = 274877906944 := rfl
  have hfloor := page_floor a
  obtain ⟨hva, hpage, huser⟩ := walkaddr_eq_some.mp hwalk
  have hbase : a / PGSIZE * PGSIZE / PGSIZE = a / PGSIZE := Nat.mul_div_cancel _ (by decide)
  have hsame : (a + k) / PGSIZE = a / PGSIZE := by rw [Nat.div_eq_iff (by decide)]; omega
  have hoff : (a + k) % PGSIZE = a - a / PGSIZE * PGSIZE + k := by
    rw [Nat.mod_eq_sub_div_mul, hsame]
    omega
  have hlt : a + k < MAXVA := by rw [hP] at *; omega
  unfold userByte
  rw [walkaddr_eq_some.mpr ⟨hlt, by rw [hsame, ← hbase]; exact hpage, huser⟩, hoff]
  rfl

/-- **`copyin` copies what the user can read**, or fails. -/
theorem copyinLoop_eq (fuel : Nat) : ∀ {a : BitVec 64} {len : Nat}, len ≤ fuel → copyinLoop pt fuel a len =
    if ∀ k < len, (userByte pt (a.toNat + k)).isSome then some ((range len).map fun k => (userByte pt (a.toNat + k)).getD 0)
    else none := by
  induction fuel with
  | zero =>
    intro a len hfuel
    rw [Nat.le_zero.mp hfuel, if_pos fun k hk => absurd hk (Nat.not_lt_zero k)]
    rfl
  | succ fuel ih =>
    intro a len hfuel
    have hP : PGSIZE = 4096 := rfl
    have hmax : MAXVA = 274877906944 := rfl
    have hfloor := page_floor a.toNat
    unfold copyinLoop
    by_cases hpos : 0 < len
    swap
    · rw [if_neg hpos, Nat.eq_zero_of_not_pos hpos, if_pos fun k hk => absurd hk (Nat.not_lt_zero k)]
      rfl
    rw [if_pos hpos]
    dsimp only
    cases hwalk : walkaddr pt (a.toNat / PGSIZE * PGSIZE) with
    | none =>
      have hfirst : ¬ (userByte pt (a.toNat + 0)).isSome := by
        intro hsome
        obtain ⟨b, hb⟩ := Option.isSome_iff_exists.mp hsome
        obtain ⟨page, hpage, -⟩ := Option.map_eq_some_iff.mp hb
        obtain ⟨hva, hpt, huser⟩ := walkaddr_eq_some.mp hpage
        have hbase : a.toNat / PGSIZE * PGSIZE / PGSIZE = a.toNat / PGSIZE := Nat.mul_div_cancel _ (by decide)
        rw [walkaddr_eq_some.mpr ⟨by omega, by rw [hbase]; exact hpt, huser⟩] at hwalk
        cases hwalk
      rw [if_neg fun hall => hfirst (hall 0 hpos)]
      rfl
    | some page =>
      dsimp only [Option.bind_eq_bind, Option.bind_some]
      generalize hn : min len (PGSIZE - (a.toNat - a.toNat / PGSIZE * PGSIZE)) = n
      have hbyte : ∀ k, k < n → userByte pt (a.toNat + k) = some (page.bytes (a.toNat - a.toNat / PGSIZE * PGSIZE + k)) :=
        fun k hk => userByte_add hwalk (by omega)
      have hrest : copyinLoop pt fuel (BitVec.ofNat 64 (a.toNat / PGSIZE * PGSIZE + PGSIZE)) (len - n) =
          if ∀ k < len - n, (userByte pt (a.toNat + n + k)).isSome then
            some ((range (len - n)).map fun k => (userByte pt (a.toNat + n + k)).getD 0)
          else none := by
        rw [ih (by omega)]
        by_cases hlast : len = n
        · rw [hlast, Nat.sub_self]
          simp
        · have hva := (walkaddr_eq_some.mp hwalk).1
          have hnext : (BitVec.ofNat 64 (a.toNat / PGSIZE * PGSIZE + PGSIZE)).toNat = a.toNat + n := by
            rw [BitVec.toNat_ofNat, Nat.mod_eq_of_lt (by omega)]
            omega
          rw [hnext]
      have hlen : len = n + (len - n) := by omega
      rw [hrest]
      by_cases hall : ∀ k < len - n, (userByte pt (a.toNat + n + k)).isSome
      · have hwhole : ∀ k < len, (userByte pt (a.toNat + k)).isSome := by
          intro k hk
          by_cases hkn : k < n
          · rw [hbyte k hkn]
            rfl
          · have hlater := hall (k - n) (by omega)
            rwa [Nat.add_assoc, Nat.add_sub_cancel' (Nat.not_lt.mp hkn)] at hlater
        rw [if_pos hall, if_pos hwhole]
        conv_rhs => rw [hlen, range_add, map_append, map_map]
        dsimp only [Option.bind_some]
        congr 2
        · apply map_congr_left
          intro k hk
          rw [hbyte k (mem_range.mp hk)]
          rfl
        · simp only [Function.comp_def, Nat.add_assoc]
      · rw [if_neg hall, if_neg fun hwhole => hall fun k hk => by rw [Nat.add_assoc]; exact hwhole _ (by omega)]
        rfl

theorem fromUser_exact (pt : PageMap) (addr : BitVec 64) (n : Nat) : (fromUser pt addr).Exact n := by
  intro tot m bs _ h
  unfold fromUser copyin at h
  rw [copyinLoop_eq m (le_refl m)] at h
  obtain ⟨-, h⟩ := Option.ite_none_right_eq_some.mp h
  rw [← Option.some.inj h, length_map, length_range]

theorem fromUser_gives (a len : Nat) (hva : a + len ≤ MAXVA) (hread : ∀ va, a ≤ va → va < a + len → (userByte pt va).isSome) :
    (fromUser pt (BitVec.ofNat 64 a)).Gives ((range len).map fun k => (userByte pt (a + k)).getD 0) := by
  intro tot m hm
  have hmax : MAXVA = 274877906944 := rfl
  rw [length_map, length_range] at hm
  have hnat : (BitVec.ofNat 64 (a + tot)).toNat = a + tot := by
    rw [BitVec.toNat_ofNat, Nat.mod_eq_of_lt (by omega)]
  unfold fromUser copyin
  rw [← BitVec.ofNat_add, copyinLoop_eq m (le_refl m), hnat, if_pos fun k hk => hread _ (by omega) (by omega)]
  congr 1
  apply ext_getElem
  · rw [length_map, length_range, length_take, length_drop, length_map, length_range]
    omega
  · intro k _ _
    simp only [getElem_map, getElem_range, getElem_take, getElem_drop, Nat.add_assoc]

end Copies

/-! ## The header -/

theorem word_bytes (w : BitVec 32) :
    w.extractLsb' 24 8 ++ w.extractLsb' 16 8 ++ w.extractLsb' 8 8 ++ w.extractLsb' 0 8 = w := by
  rw [BitVec.extractLsb'_append_extractLsb'_eq_extractLsb' (by rfl),
    BitVec.extractLsb'_append_extractLsb'_eq_extractLsb' (by rfl),
    BitVec.extractLsb'_append_extractLsb'_eq_extractLsb' (by rfl)]
  exact BitVec.extractLsb'_eq_self

theorem ResumeHdr.length_bytes (h : ResumeHdr) : h.bytes.length = 32 := by
  unfold ResumeHdr.bytes
  rw [length_append, length_ofFn]
  rfl

theorem ResumeHdr.ofBytes_bytes (h : ResumeHdr) : ResumeHdr.ofBytes h.bytes = h := by
  obtain ⟨memSz, codeSz, stackSz, tracing, name⟩ := h
  unfold ResumeHdr.ofBytes ResumeHdr.bytes
  congr 1
  · exact word_bytes memSz
  · exact word_bytes codeSz
  · exact word_bytes stackSz
  · exact word_bytes tracing
  funext i
  have hskip := getD_append_right (intBytes memSz ++ intBytes codeSz ++ intBytes stackSz ++ intBytes tracing)
    (ofFn fun i => (name i).toBitVec) 0 (16 + i) (Nat.le_add_right 16 i)
  have hi : 16 + i.val - (intBytes memSz ++ intBytes codeSz ++ intBytes stackSz ++ intBytes tracing).length = i :=
    Nat.add_sub_cancel_left ..
  rw [hskip, hi, getD_eq_getElem _ _ (by rw [length_ofFn]; exact i.isLt), List.getElem_ofFn]

theorem resumeHdr_codeSz {p : UProc} (h : 8192 ≤ p.sz) : (resumeHdr p).codeSz = BitVec.ofNat 32 (p.sz - 8192) := by
  show BitVec.ofInt 32 (p.sz - 8192) = _
  rw [← BitVec.ofInt_natCast]
  congr 1
  omega

theorem copyName_of_ne {t : CharArr 16} {i : Fin 16} (h : ∀ j < i, t j ≠ 0) : copyName t i = t i := by
  apply if_neg
  rintro ⟨j, hj, hzero⟩
  exact h j hj hzero

theorem copyName_strncmp (t : CharArr 16) :
    strncmp (fun i => if h : i < 16 then t ⟨i, h⟩ else 0)
      (fun i => if h : i < 16 then copyName (copyName t) ⟨i, h⟩ else 0) 16 = 0 := by
  rw [strncmp_eq_zero_iff]
  intro k hk hbefore
  have hne : ∀ j : Fin 16, j.val < k → t j ≠ 0 := by
    intro j hj
    have := hbefore j hj
    rwa [dif_pos j.isLt] at this
  rw [dif_pos hk, dif_pos hk, copyName_of_ne, copyName_of_ne fun j hj => hne j hj]
  intro j hj
  rw [copyName_of_ne fun i hi => hne i (lt_trans hi hj)]
  exact hne j hj

/-! ## `loadseg` -/

section Load

variable {data : List Byte} {pt pt' : PageMap}

theorem userByte_eq {page : Page} {a k : Nat} (hpage : pt a = some page) (huser : page.user = true) (ha : a < 67108864)
    (hk : k < 4096) : userByte pt (a * 4096 + k) = some (page.bytes k) := by
  have hdiv : (a * 4096 + k) / PGSIZE = a := by show (a * 4096 + k) / 4096 = a; omega
  have hmod : (a * 4096 + k) % PGSIZE = k := by show (a * 4096 + k) % 4096 = k; omega
  have hwalk : walkaddr pt (a * 4096 + k) = some page := by
    rw [walkaddr_eq_some, hdiv]
    exact ⟨by unfold MAXVA; omega, hpage, huser⟩
  unfold userByte
  rw [hwalk, hmod]
  rfl

theorem readi_eq {off : Nat} (h : off ≤ data.length) (n : Nat) :
    readi data off n = ((((data.drop off).take n).length : Int), (data.drop off).take n) := by
  unfold readi
  rw [if_neg (Nat.not_lt.mpr h)]

/-- **The loop of `loadseg`** over pages that are mapped fails when the file is too short.  Otherwise it fills whole pages
with the bytes of the file and leaves the others as they are. -/
theorem loadsegLoop_spec (data : List Byte) {v sz : Nat} (offset : Nat) (hva : v + npages sz ≤ 67108864) (rem : Nat) :
    ∀ {c : Nat} {pt : PageMap}, c + rem = npages sz → (∀ j, v + c ≤ j → j < v + npages sz → flags pt j = some true) →
    (data.length < offset + sz → 0 < rem → loadsegLoop data (v * 4096) offset sz rem (c * 4096) pt = .failed) ∧
    (offset + sz ≤ data.length → ∃ pt', loadsegLoop data (v * 4096) offset sz rem (c * 4096) pt = .ok pt' ∧
      (∀ j, j < v + c ∨ v + npages sz ≤ j → pt' j = pt j) ∧ ∀ j k, c ≤ j → (j + 1) * 4096 ≤ sz → k < 4096 →
        userByte pt' ((v + j) * 4096 + k) = some (data.getD (offset + j * 4096 + k) 0)) := by
  have hpages := npages_eq sz
  have hP : PGSIZE = 4096 := rfl
  induction rem with
  | zero =>
    intro c pt hc _
    refine ⟨fun _ h => absurd h (Nat.lt_irrefl 0), fun _ => ⟨pt, rfl, fun _ _ => rfl, fun j k hlow hhigh => ?_⟩⟩
    omega
  | succ rem ih =>
    intro c pt hc hflags
    have hidx : (v * 4096 + c * 4096) / PGSIZE = v + c := by rw [hP]; omega
    obtain ⟨page, hpage, huser⟩ := Option.map_eq_some_iff.mp (hflags (v + c) (le_refl _) (by omega))
    have hwalk : walkaddr pt (v * 4096 + c * 4096) = some page := by
      rw [walkaddr_eq_some, hidx]
      exact ⟨by unfold MAXVA; omega, hpage, huser⟩
    have hread : (readi data (offset + c * 4096) (min (sz - c * 4096) PGSIZE)).1 = (min (sz - c * 4096) PGSIZE : Nat) ↔
        offset + c * 4096 + min (sz - c * 4096) PGSIZE ≤ data.length := by
      unfold readi
      split
      · omega
      · rw [length_take, length_drop]
        omega
    unfold loadsegLoop
    rw [hwalk]
    dsimp only
    rw [hidx, show c * 4096 + PGSIZE = (c + 1) * 4096 by rw [hP]; omega]
    split
    · rename_i hfail
      rw [Ne, hread] at hfail
      exact ⟨fun _ _ => rfl, fun hlen => by omega⟩
    rename_i hok
    rw [not_not, hread] at hok
    generalize hnew : ({ page with
      bytes := fun k => if k < min (sz - c * 4096) PGSIZE then
        (readi data (offset + c * 4096) (min (sz - c * 4096) PGSIZE)).2.getD k 0 else page.bytes k } : Page) = new
    obtain ⟨hfail, hdone⟩ := @ih (c + 1) (update pt (v + c) (some new)) (by omega) fun j hlow hhigh => by
      rw [← hnew, flags_store hpage]
      exact hflags j (by omega) hhigh
    refine ⟨fun hlen _ => hfail hlen (by omega), fun hlen => ?_⟩
    obtain ⟨pt', hrun, hframe, hbytes⟩ := hdone hlen
    refine ⟨pt', hrun, fun j hj => ?_, fun j k hlow hhigh hk => ?_⟩
    · rw [hframe j (by omega), update_of_ne (by omega)]
    by_cases hj : j = c
    · subst hj
      have hpage' : pt' (v + j) = some new := by rw [hframe (v + j) (.inl (by omega)), update_self]
      have hn : min (sz - j * 4096) PGSIZE = 4096 := by rw [hP]; omega
      rw [userByte_eq hpage' (by rw [← hnew]; exact huser) (by omega) hk, ← hnew]
      dsimp only
      rw [hn, if_pos hk, readi_eq (by omega), getD_eq_getElem?_getD, getD_eq_getElem?_getD, getElem?_take_of_lt hk,
        getElem?_drop]
    · exact hbytes j k (by omega) hhigh hk

theorem loadseg_spec (data : List Byte) (v offset sz : Nat) (hva : v + npages sz ≤ 67108864)
    (hflags : ∀ j, v ≤ j → j < v + npages sz → flags pt j = some true) :
    (data.length < offset + sz → 0 < sz → loadseg data pt (v * 4096) offset sz = .failed) ∧
    (offset + sz ≤ data.length → ∃ pt', loadseg data pt (v * 4096) offset sz = .ok pt' ∧
      (∀ j, j < v ∨ v + npages sz ≤ j → pt' j = pt j) ∧ ∀ j k, (j + 1) * 4096 ≤ sz → k < 4096 →
        userByte pt' ((v + j) * 4096 + k) = some (data.getD (offset + j * 4096 + k) 0)) := by
  obtain ⟨hfail, hdone⟩ := loadsegLoop_spec data offset hva (npages sz) (c := 0) (Nat.zero_add _) hflags
  rw [Nat.zero_mul] at hfail hdone
  unfold loadseg
  rw [if_neg (by rw [not_not]; exact Nat.mul_mod_left v 4096)]
  refine ⟨fun hlen hpos => hfail hlen ?_, fun hlen => ?_⟩
  · rw [npages_eq]
    omega
  · obtain ⟨pt', hrun, hframe, hbytes⟩ := hdone hlen
    exact ⟨pt', hrun, hframe, fun j k => hbytes j k (Nat.zero_le j)⟩

theorem toNat_ofInt_natCast {w : Nat} (n : Nat) (h : n < 2 ^ w) : (BitVec.ofInt w (n : Int)).toNat = n := by
  rw [BitVec.ofInt_natCast, BitVec.toNat_ofNat, Nat.mod_eq_of_lt h]

theorem codeSz_small {codeSz : BitVec 32} (h : (codeSz.signExtend 64).toNat < 2147483648 ∨ codeSz.toNat < 2147483648) :
    (codeSz.signExtend 64).toNat = codeSz.toNat ∧ codeSz.toInt = codeSz.toNat := by
  have hw : (codeSz.setWidth 64).toNat = codeSz.toNat := by
    rw [BitVec.toNat_setWidth, Nat.mod_eq_of_lt (by have := codeSz.isLt; omega)]
  rw [BitVec.toNat_signExtend, hw] at h ⊢
  cases hmsb : codeSz.msb with
  | false => exact ⟨rfl, BitVec.toInt_eq_toNat_of_msb hmsb⟩
  | true =>
    have hge := BitVec.msb_eq_true_iff_two_mul_ge.mp hmsb
    rw [hmsb, if_pos rfl] at h
    omega

theorem freewalk_empty (h : ∀ i, pt i = none) : freewalk pt = some () := by
  unfold freewalk
  exact if_pos fun i _ => h i

theorem procFreepagetable_ok {sz : Nat} (hmapped : ∀ i, flags pt i = none ↔ npages sz ≤ i) : procFreepagetable sz pt = some () := by
  unfold procFreepagetable
  split
  · have hsome : ∀ i, 0 ≤ i → i < 0 + npages sz → (pt i).isSome := by
      intro i _ hi
      have hne := (hmapped i).not.mpr (by omega)
      unfold flags at hne
      rwa [Option.map_eq_none_iff, ← Ne, ← Option.isSome_iff_ne_none] at hne
    have hnone : ∀ i, setPages 0 (0 + npages sz) none pt i = none := by
      intro i
      unfold setPages
      split
      · rfl
      · exact Option.map_eq_none_iff.mp ((hmapped i).mpr (by omega))
    rw [uvmunmap_eq _ _ _ hsome, Option.bind_eq_bind, Option.bind_some, freewalk_empty hnone]
  · rfl

/-- The file has `n` bytes of code, which do not end on a page boundary, and there is memory for them. -/
def Misaligned (mem : Room) (n len : Nat) : Prop := n % 4096 ≠ 0 ∧ 320 + n ≤ len ∧ npages n + 2 ≤ mem.limit

/-- The free list runs empty at a page for the `n` bytes of code, or after the code was read at a page for the stack, and
pages are given back. -/
def Starved (mem : Room) (n len : Nat) : Prop :=
  320 ≤ len ∧ (Starves mem 0 (npages n) ∨
    0 < n ∧ npages n ≤ mem.limit ∧ 320 + n ≤ len ∧ Starves mem (npages n) (npages n + 2))

/-- The file has `n` bytes of code, in whole pages, and a page of stack, and there is memory for them. -/
def Complete (mem : Room) (n len : Nat) : Prop := 0 < n ∧ n % 4096 = 0 ∧ 320 + n + 4096 ≤ len ∧ npages n + 2 ≤ mem.limit

theorem Complete.not_starved {mem : Room} {n len : Nat} (h : Complete mem n len) : ¬ Starved mem n len := by
  have hmem := h.2.2.2
  rintro ⟨-, hstarves | ⟨-, -, -, hstarves⟩⟩
  all_goals
    have hlt := hstarves.lt
    omega

theorem not_starved {mem : Room} {n len : Nat} (hcode : ¬ Starves mem 0 (npages n))
    (hstack : 0 < n → npages n ≤ mem.limit → 320 + n ≤ len → ¬ Starves mem (npages n) (npages n + 2)) : ¬ Starved mem n len := by
  rintro ⟨-, h | ⟨hpos, hle, hlen, h⟩⟩
  · exact hcode h
  · exact hstack hpos hle hlen h

/-- The memory that `kresume` builds: `c` pages of code, a guard page and a page of stack. -/
structure Loaded (data : List Byte) (c : Nat) (pt : PageMap) : Prop where
  guard : flags pt c = some false
  code : ∀ j k, j < c → k < 4096 → userByte pt (j * 4096 + k) = some (data.getD (320 + j * 4096 + k) 0)
  stack : ∀ k, k < 4096 → userByte pt ((c + 1) * 4096 + k) = some (data.getD (320 + c * 4096 + k) 0)

/-- **What becomes of the new memory**; where it is given up, it can be freed. -/
theorem loadImage_outcome {mem : Room} {data : List Byte} (hfront : 320 ≤ data.length) (hlimit : mem.limit ≤ NPAGES)
    (codeSz : BitVec 32) {n : Nat} (hn : (codeSz.signExtend 64).toNat = n) :
    loadImage mem data codeSz = .panic ∧ (Misaligned mem n data.length ∨ Starved mem n data.length) ∨
    (∃ pt, loadImage mem data codeSz = .ok ((npages n + 2) * 4096, pt) ∧ Loaded data (npages n) pt) ∧
      Complete mem n data.length ∨
    loadImage mem data codeSz = .failed ∧ ¬ (Misaligned mem n data.length ∨ Starved mem n data.length) ∧
      ¬ Complete mem n data.length ∧ ∃ sz pt, failedImage mem data codeSz = some (sz, pt) ∧ procFreepagetable sz pt = some () := by
  have hP : PGSIZE = 4096 := rfl
  have hpages := npages_eq n
  have hmax : NPAGES = 32768 := rfl
  unfold loadImage failedImage Misaligned Complete
  rw [hn, uvmalloc_eq (Nat.zero_le _), show npages 0 = 0 from rfl]
  by_cases hfits : npages n ≤ 0 ∨ npages n ≤ mem.limit
  swap
  · rw [if_neg hfits]
    by_cases hstarves : Starves mem 0 (npages n)
    · rw [if_pos hstarves]
      exact .inl ⟨rfl, .inr ⟨hfront, .inl hstarves⟩⟩
    · rw [if_neg hstarves]
      have hno := @not_starved _ _ data.length hstarves fun _ hle => absurd (.inr hle) hfits
      exact .inr (.inr ⟨rfl, not_or.mpr ⟨by omega, hno⟩, by omega, 0, _, rfl, rfl⟩)
  have hcodeFed : ¬ Starves mem 0 (npages n) := fun h => by
    have hlt := h.lt
    omega
  rw [if_pos hfits]
  simp only [Option.bind_eq_bind, Option.bind_some]
  by_cases hzero : n = 0
  · rw [if_pos hzero, if_pos hzero]
    have hno := @not_starved _ _ data.length hcodeFed fun hpos => absurd hzero (Nat.ne_of_gt hpos)
    refine .inr (.inr ⟨rfl, not_or.mpr ⟨by omega, hno⟩, by omega, n, _, rfl, ?_⟩)
    rw [hzero]
    rfl
  rw [if_neg hzero, if_neg hzero]
  obtain ⟨hext, hint⟩ := @codeSz_small codeSz (.inl (by omega))
  rw [hn] at hext
  rw [hint, ← hext]
  generalize hpt : setPages 0 (npages n) (some zeroPage) (fun _ => none) = pt1
  have hflags : ∀ i, flags pt1 i = if i < npages n then some true else none := by
    intro i
    rw [← hpt, flags_setPages]
    simp only [Nat.zero_le, true_and]
    rfl
  obtain ⟨hshort, hload⟩ := loadseg_spec data 0 320 n (by omega)
    fun j _ hj => show flags pt1 j = some true by rw [hflags, if_pos (by omega)]
  rw [Nat.zero_mul] at hshort hload
  by_cases hcode : 320 + n ≤ data.length
  swap
  · rw [hshort (by omega) (by omega)]
    have hno := not_starved hcodeFed fun _ _ hlong => absurd hlong hcode
    refine .inr (.inr ⟨rfl, not_or.mpr ⟨by omega, hno⟩, by omega, n, pt1, rfl, procFreepagetable_ok fun i => ?_⟩)
    rw [hflags]
    split
    · exact iff_of_false (Option.some_ne_none _) (by omega)
    · exact iff_of_true rfl (by omega)
  obtain ⟨pt2, hfirst, -, hbytes⟩ := hload hcode
  rw [hfirst]
  dsimp only
  rw [addStack_eq]
  by_cases hstack : npages n + 2 ≤ mem.limit
  swap
  · rw [if_neg hstack]
    by_cases hstarves : Starves mem (npages n) (npages n + 2)
    · rw [if_pos hstarves]
      exact .inl ⟨rfl, .inr ⟨hfront, .inr ⟨by omega, by omega, hcode, hstarves⟩⟩⟩
    · rw [if_neg hstarves]
      have hno := @not_starved _ _ data.length hcodeFed fun _ _ _ => hstarves
      exact .inr (.inr ⟨rfl, not_or.mpr ⟨by omega, hno⟩, by omega, 0, _, rfl, rfl⟩)
  rw [if_pos hstack]
  dsimp only
  rw [if_neg (by rw [hP]; omega)]
  have hva : (BitVec.ofInt 64 ((n : Int) + PGSIZE)).toNat = n + 4096 := toNat_ofInt_natCast (n + 4096) (by omega)
  have hoff : (BitVec.ofInt 32 (320 + (n : Int))).toNat = 320 + n := toNat_ofInt_natCast (320 + n) (by omega)
  rw [hva, hoff]
  generalize hpt' : update (setPages (npages n) (npages n + 2) (some zeroPage) pt2) (npages n) (some guardPage) = pt3
  have hflags3 : ∀ i, flags pt3 i =
      if i = npages n then some false else if i = npages n + 1 then some true else flags pt2 i := by
    intro i
    rw [← hpt', flags_addStack]
  by_cases halign : n % 4096 = 0
  swap
  · have hpanic : loadseg data pt3 (n + 4096) (320 + n) PGSIZE = .panic := if_pos (by rw [hP]; omega)
    rw [hpanic]
    exact .inl ⟨rfl, .inl ⟨halign, hcode, hstack⟩⟩
  have hone : npages 4096 = 1 := rfl
  obtain ⟨hshort', hload'⟩ := loadseg_spec data (npages n + 1) (320 + n) 4096 (by omega) fun j hlow hhigh => by
    rw [hflags3, if_neg (by omega), if_pos (by omega)]
  rw [show (npages n + 1) * 4096 = n + 4096 by omega] at hshort' hload'
  rw [hP]
  by_cases hlen : 320 + n + 4096 ≤ data.length
  · obtain ⟨pt4, hsecond, hframe, hbytes'⟩ := hload' hlen
    rw [hsecond]
    refine .inr (.inl ⟨⟨pt4, rfl, ?_, fun j k hj hk => ?_, fun k hk => ?_⟩, by omega, halign, hlen, hstack⟩)
    · rw [loadseg_flags hsecond, hflags3, if_pos rfl]
    · have hsame : pt4 j = pt2 j := by
        rw [hframe j (.inl (by omega)), ← hpt', update_of_ne (by omega)]
        exact if_neg (by omega)
      have hdiv : (j * 4096 + k) / PGSIZE = j := by rw [hP]; omega
      have hread := hbytes j k (by omega) hk
      rw [Nat.zero_add] at hread
      unfold userByte walkaddr at hread ⊢
      rw [hdiv] at hread ⊢
      rwa [hsame]
    · have hread := hbytes' 0 k (by omega) hk
      rwa [Nat.zero_mul, Nat.add_zero, Nat.add_zero, show 320 + n = 320 + npages n * 4096 by omega] at hread
  · rw [hshort' (by omega) (by decide)]
    have hno := @not_starved _ _ data.length hcodeFed fun _ _ _ h => absurd h.lt.2 (Nat.not_lt.mpr hstack)
    refine .inr (.inr ⟨rfl, not_or.mpr ⟨by omega, hno⟩, by omega, _, _, rfl, procFreepagetable_ok fun i => ?_⟩)
    have hall : npages ((npages n + 2) * 4096) = npages n + 2 := npages_mul _
    rw [hflags3, hall, loadseg_flags hfirst, hflags]
    split
    · exact iff_of_false (Option.some_ne_none _) (by omega)
    split
    · exact iff_of_false (Option.some_ne_none _) (by omega)
    split
    · exact iff_of_false (Option.some_ne_none _) (by omega)
    · exact iff_of_true rfl (by omega)

end Load

/-! ## The image -/

section Images

variable {p : UProc} {data : List Byte}

/-- The header and the registers, as `ksuspend` writes them. -/
def front (p : UProc) : List Byte := (resumeHdr p).bytes ++ List.ofFn p.tf

theorem length_front (p : UProc) : (front p).length = 320 := by
  unfold front
  rw [length_append, ResumeHdr.length_bytes, length_ofFn]

theorem writeImage_eq (p : UProc) : writeImage p ⟨true, 0, []⟩ =
    (filewrite (fromUser p.pt (BitVec.ofInt 64 ((resumeHdr p).codeSz.toInt + PGSIZE))) PGSIZE
      (filewrite (fromUser p.pt 0) (resumeHdr p).codeSz.toInt ⟨true, 320, front p⟩).2).2 := by
  have hhdr := filewrite_append (fromKernel_gives (resumeHdr p).bytes) (f := ⟨true, 0, []⟩) rfl rfl (by
    rw [ResumeHdr.length_bytes]
    decide)
  have htf := filewrite_append (fromKernel_gives (ofFn p.tf)) (f := ⟨true, 32, (resumeHdr p).bytes⟩) rfl
    (ResumeHdr.length_bytes _).symm (by
      dsimp only
      rw [ResumeHdr.length_bytes, length_ofFn]
      decide)
  rw [ResumeHdr.length_bytes] at hhdr
  rw [length_ofFn] at htf
  unfold writeImage
  dsimp only
  rw [show (32 : Int) = ((32 : Nat) : Int) from rfl, hhdr]
  dsimp only [nil_append]
  rw [show (288 : Int) = ((288 : Nat) : Int) from rfl, htf]
  rfl

theorem writeImage_front (p : UProc) : (writeImage p ⟨true, 0, []⟩).data.take 320 = front p ∧
    (writeImage p ⟨true, 0, []⟩).data.length ≤ 274432 := by
  have hcode := filewrite_appended (f := ⟨true, 320, front p⟩) (resumeHdr p).codeSz.toInt (fromUser_exact p.pt 0 _)
    (length_front p).le (by dsimp only; rw [length_front]; decide)
  have hstack := filewrite_appended PGSIZE
    (fromUser_exact p.pt (BitVec.ofInt 64 ((resumeHdr p).codeSz.toInt + PGSIZE)) _) hcode.behind hcode.short
  obtain ⟨code, hdata⟩ := hcode.data
  obtain ⟨stack, hall⟩ := hstack.data
  rw [writeImage_eq]
  refine ⟨?_, hstack.short⟩
  rw [hall, hdata, append_assoc, take_left' (length_front p)]

theorem length_of_front (hfront : data.take 320 = front p) : 320 ≤ data.length := by
  have hlen := congrArg length hfront
  rw [length_front, length_take] at hlen
  omega

theorem kresume_eq_ok {mem : Room} {tables : Bool} {q q' : UProc} (hfront : data.take 320 = front p) :
    kresume mem tables data q = .ok q' ↔ tables = true ∧ ∃ sz pt, loadImage mem data (resumeHdr p).codeSz = .ok (sz, pt) ∧
      q' = { q with name := copyName (copyName p.name), pt := pt, sz := sz, tracing := p.tracing, tf := p.tf } := by
  have hlen := length_of_front hfront
  have hbytes : data.take 32 = (resumeHdr p).bytes := by
    have htake := congrArg (take 32) hfront
    rw [take_take] at htake
    exact htake.trans (take_left' (ResumeHdr.length_bytes _))
  have hregs : (data.drop 32).take 288 = ofFn p.tf := by
    have hdrop := congrArg (drop 32) hfront
    rw [drop_take] at hdrop
    exact hdrop.trans (drop_left' (ResumeHdr.length_bytes _))
  have hread : readi data 0 32 = (32, (resumeHdr p).bytes) := by
    unfold readi
    rw [if_neg (Nat.not_lt_zero _), drop_zero, hbytes, ResumeHdr.length_bytes]
    rfl
  have htf : readi data 32 288 = (288, ofFn p.tf) := by
    unfold readi
    rw [if_neg (by omega), hregs, length_ofFn]
    rfl
  have hget : (fun i : Fin 288 => (ofFn p.tf).getD i 0) = p.tf := by
    funext i
    rw [getD_eq_getElem _ _ (by rw [length_ofFn]; exact i.isLt), List.getElem_ofFn]
  unfold kresume
  rw [hread, htf]
  dsimp only
  rw [if_neg (by decide), if_neg (by decide), ResumeHdr.ofBytes_bytes, hget]
  cases tables with
  | false =>
    rw [if_pos rfl]
    exact iff_of_false (fun h => by cases h) fun h => by cases h.1
  | true =>
    rw [if_neg (by decide)]
    cases himage : loadImage mem data (resumeHdr p).codeSz with
    | panic | failed =>
      refine iff_of_false (fun h => by cases h) ?_
      rintro ⟨_, sz, pt, h, _⟩
      cases h
    | ok r =>
      obtain ⟨sz, pt⟩ := r
      constructor
      · intro h
        cases h
        exact ⟨rfl, sz, pt, rfl, rfl⟩
      · rintro ⟨_, sz', pt', h, rfl⟩
        cases h
        rfl

end Images

/-! ## The round trip -/

/-- The memory of `p` is what an image can hold: whole pages, more than the guard page and
the stack, the guard page second from the top, and no more than fits into a file behind the header. -/
structure Whole (p : UProc) : Prop where
  aligned : p.sz % PGSIZE = 0
  code : 2 * PGSIZE < p.sz
  fits : 320 + (p.sz - PGSIZE) ≤ MAXFILE * BSIZE
  guard : flags p.pt (p.sz / PGSIZE - 2) = some false

section RoundTrip

variable {p : UProc} {g va : Nat} {mem : Room} {tables : Bool}

theorem flags_of_userByte {pt : PageMap} {b : Byte} (h : userByte pt va = some b) :
    flags pt (va / PGSIZE) = some true := by
  obtain ⟨page, hwalk, _⟩ := Option.map_eq_some_iff.mp h
  obtain ⟨_, hpage, huser⟩ := walkaddr_eq_some.mp hwalk
  unfold flags
  rw [hpage, Option.map_some, huser]

theorem Whole.isSome_userByte (hw : Whole p) (h : Laid g p.sz p.pt) (hva : va < p.sz)
    (hne : va / PGSIZE ≠ p.sz / PGSIZE - 2) : (userByte p.pt va).isSome := by
  have hsmall := h.small
  have hpages : va / PGSIZE < npages p.sz := by show va / 4096 < (p.sz + 4095) / 4096; omega
  have hmax : va < MAXVA := by
    rw [npages_eq] at hsmall
    unfold MAXVA
    unfold NPAGES at hsmall
    omega
  have huser : flags p.pt (va / PGSIZE) = some true := by
    cases hflag : flags p.pt (va / PGSIZE) with
    | none => exact absurd ((h.mapped _).mp hflag) (Nat.not_le.mpr hpages)
    | some user =>
      cases user with
      | true => rfl
      | false => exact absurd ((h.guard _ hflag).trans (h.guard _ hw.guard).symm) hne
  obtain ⟨page, hpage, hu⟩ := Option.map_eq_some_iff.mp huser
  have hwalk : walkaddr p.pt va = some page := walkaddr_eq_some.mpr ⟨hmax, hpage, hu⟩
  unfold userByte
  rw [hwalk]
  rfl

theorem Whole.image (hw : Whole p) (h : Laid g p.sz p.pt) {c : Nat} (hc : p.sz = (c + 2) * 4096) :
    (writeImage p ⟨true, 0, []⟩).data = front p ++
      (range (c * 4096)).map (fun k => (userByte p.pt (0 + k)).getD 0) ++
      (range 4096).map (fun k => (userByte p.pt ((c + 1) * 4096 + k)).getD 0) := by
  have hP : PGSIZE = 4096 := rfl
  have hmax : MAXVA = 274877906944 := rfl
  have hguard : p.sz / PGSIZE - 2 = c := by rw [hc, hP]; omega
  have hfits : 320 + (c + 1) * 4096 ≤ 274432 := by
    have hfile : 320 + (p.sz - 4096) ≤ 274432 := hw.fits
    omega
  have hcode : (fromUser p.pt (BitVec.ofNat 64 0)).Gives
      ((range (c * 4096)).map fun k => (userByte p.pt (0 + k)).getD 0) := by
    apply fromUser_gives 0 (c * 4096)
    · omega
    · intro va _ hva
      apply hw.isSome_userByte h (by omega)
      rw [hguard, hP]
      omega
  have hstack : (fromUser p.pt (BitVec.ofNat 64 ((c + 1) * 4096))).Gives
      ((range 4096).map fun k => (userByte p.pt ((c + 1) * 4096 + k)).getD 0) := by
    apply fromUser_gives ((c + 1) * 4096) 4096
    · omega
    · intro va hlow hva
      apply hw.isSome_userByte h (by omega)
      rw [hguard, hP]
      omega
  have hint : (resumeHdr p).codeSz.toInt = ((c * 4096 : Nat) : Int) := by
    have hnat : (BitVec.ofNat 32 (c * 4096)).toNat = c * 4096 := by
      rw [BitVec.toNat_ofNat, Nat.mod_eq_of_lt (by omega)]
    rw [resumeHdr_codeSz (by omega), show p.sz - 8192 = c * 4096 by omega, BitVec.toInt_eq_toNat_of_msb, hnat]
    rw [BitVec.msb_eq_false_iff_two_mul_lt, hnat]
    omega
  have haddr : BitVec.ofInt 64 (((c * 4096 : Nat) : Int) + PGSIZE) = BitVec.ofNat 64 ((c + 1) * 4096) := by
    rw [← BitVec.ofInt_natCast, Nat.succ_mul, Int.natCast_add, hP]
  have hwrite1 := filewrite_append hcode (f := ⟨true, 320, front p⟩) rfl (length_front p).symm (by
    dsimp only
    rw [length_front, length_map, length_range]
    exact (Nat.add_le_add_left (Nat.mul_le_mul_right 4096 (Nat.le_succ c)) 320).trans hfits)
  rw [length_map, length_range] at hwrite1
  rw [writeImage_eq, hint, haddr, show (0 : BitVec 64) = BitVec.ofNat 64 0 from rfl, hwrite1]
  dsimp only
  have hwrite2 := filewrite_append hstack
    (f := ⟨true, 320 + c * 4096, front p ++ (range (c * 4096)).map fun k => (userByte p.pt (0 + k)).getD 0⟩) rfl
    (by rw [length_append, length_front, length_map, length_range]) (by
      dsimp only
      rw [length_append, length_front, length_map, length_range, length_map, length_range]
      omega)
  rw [length_map, length_range] at hwrite2
  rw [show (PGSIZE : Int) = ((4096 : Nat) : Int) from rfl, hwrite2]

theorem getD_code {n x : Nat} {g : Nat → Byte} {bs : List Byte} (hx : x < n) :
    (front p ++ (range n).map g ++ bs).getD (320 + x) 0 = g x := by
  have hlen : ((range n).map g).length = n := by rw [length_map, length_range]
  rw [append_assoc, getD_append_right _ _ _ _ (by rw [length_front]; omega), length_front,
    Nat.add_sub_cancel_left, getD_append _ _ _ _ (by omega), getD_eq_getElem _ _ (by omega),
    getElem_map, getElem_range]

theorem getD_stack {n k : Nat} {g g' : Nat → Byte} (hk : k < 4096) :
    (front p ++ (range n).map g ++ (range 4096).map g').getD (320 + n + k) 0 = g' k := by
  have hlen : (front p ++ (range n).map g).length = 320 + n := by
    rw [length_append, length_front, length_map, length_range]
  rw [getD_append_right _ _ _ _ (by omega), hlen, Nat.add_sub_cancel_left,
    getD_eq_getElem _ _ (by rw [length_map, length_range]; exact hk), getElem_map,
    getElem_range]

theorem whole_of_restored (h : Laid g p.sz p.pt) (hlimit : mem.limit ≤ NPAGES) {q q' : UProc}
    (hrun : kresume mem tables (writeImage p ⟨true, 0, []⟩).data q = .ok q') (hr : Restored p q') :
    tables = true ∧ p.sz / PGSIZE ≤ mem.limit ∧ Whole p := by
  obtain ⟨hfront, hshort⟩ := writeImage_front p
  obtain ⟨htables, sz, pt, himage, rfl⟩ := (kresume_eq_ok hfront).mp hrun
  have houtcome := loadImage_outcome (length_of_front hfront) hlimit (resumeHdr p).codeSz rfl
  rw [himage] at houtcome
  obtain ⟨hstop, -⟩ | ⟨⟨_, heq, hloaded⟩, hpos, halign, hlen, hfits⟩ | ⟨hstop, -⟩ := houtcome
  · cases hstop
  swap
  · cases hstop
  cases heq
  have hguard := hloaded.guard
  have hcode := npages_eq ((resumeHdr p).codeSz.signExtend 64).toNat
  generalize npages ((resumeHdr p).codeSz.signExtend 64).toNat = c at *
  have hP : PGSIZE = 4096 := rfl
  have hsz : (c + 2) * 4096 = p.sz := hr.sz
  have hdiv : p.sz / PGSIZE = c + 2 := by rw [← hsz, hP]; omega
  refine ⟨htables, by omega, ⟨?_, ?_, ?_, ?_⟩⟩
  · rw [← hsz]
    exact Nat.mul_mod_left _ _
  · rw [hP]
    omega
  · show 320 + (p.sz - 4096) ≤ 274432
    omega
  rw [hdiv, Nat.add_sub_cancel]
  -- the resumed process cannot touch this page, so the suspended one could not
  cases hflag : flags p.pt c with
  | none =>
    have hnone := (h.mapped c).mp hflag
    rw [npages_eq] at hnone
    omega
  | some user =>
    cases user with
    | false => rfl
    | true =>
      obtain ⟨page, hpage, huser⟩ := Option.map_eq_some_iff.mp hflag
      have hsmall := h.small
      rw [npages_eq] at hsmall
      unfold NPAGES at hsmall
      have hread := userByte_eq hpage huser (by omega) (Nat.zero_lt_succ 4095)
      have hsame := flags_of_userByte (hr.memory _ _ (by omega) hread)
      have hc : (c * 4096 + 0) / PGSIZE = c := by rw [hP]; omega
      rw [hc, hguard] at hsame
      cases hsame

theorem Whole.restored (hw : Whole p) (h : Laid g p.sz p.pt) (hlimit : mem.limit ≤ NPAGES) (hmem : p.sz / PGSIZE ≤ mem.limit)
    (q : UProc) : ∃ q', kresume mem true (writeImage p ⟨true, 0, []⟩).data q = .ok q' ∧ Restored p q' := by
  have hP : PGSIZE = 4096 := rfl
  obtain ⟨c, hc⟩ : ∃ c, p.sz = (c + 2) * 4096 := by
    have halign : p.sz % 4096 = 0 := hw.aligned
    have hcode : 2 * 4096 < p.sz := hw.code
    exact ⟨p.sz / 4096 - 2, by omega⟩
  have hguard : p.sz / PGSIZE - 2 = c := by rw [hc, hP]; omega
  have hpos : 0 < c := by
    have hcode : 2 * 4096 < p.sz := hw.code
    omega
  have hfits : c + 2 ≤ mem.limit := by rw [hc, hP] at hmem; omega
  have hdata := hw.image h hc
  have hfront := (writeImage_front p).1
  generalize (writeImage p ⟨true, 0, []⟩).data = data at hdata hfront
  have hlen : data.length = 320 + (c + 1) * 4096 := by
    rw [hdata, length_append, length_append, length_front, length_map, length_range, length_map, length_range]
    omega
  have hcodeSz : (resumeHdr p).codeSz = BitVec.ofNat 32 (c * 4096) := by
    rw [resumeHdr_codeSz (by omega), show p.sz - 8192 = c * 4096 by omega]
  have hmax : NPAGES = 32768 := rfl
  have hnat : (BitVec.ofNat 32 (c * 4096)).toNat = c * 4096 := by
    rw [BitVec.toNat_ofNat, Nat.mod_eq_of_lt (by omega)]
  have hext : ((BitVec.ofNat 32 (c * 4096)).signExtend 64).toNat = c * 4096 :=
    (codeSz_small (.inr (by omega))).1.trans hnat
  have hpages : npages (c * 4096) = c := npages_mul c
  have houtcome := loadImage_outcome (length_of_front hfront) hlimit _ hext
  have hcomplete : Complete mem (c * 4096) data.length := ⟨by omega, Nat.mul_mod_left c 4096, by omega, by rwa [hpages]⟩
  rw [hpages] at houtcome
  obtain ⟨-, hmis | hstarved⟩ | ⟨⟨pt, himage, -, hbytes, hstack⟩, -⟩ | ⟨-, -, hnot, -⟩ := houtcome
  · exact absurd hcomplete.2.1 hmis.1
  · exact absurd hstarved hcomplete.not_starved
  swap
  · exact absurd hcomplete hnot
  refine ⟨_, (kresume_eq_ok hfront).mpr ⟨rfl, _, pt, by rw [hcodeSz]; exact himage, rfl⟩, ?_⟩
  refine ⟨copyName_strncmp p.name, rfl, hc.symm, fun va b hva hread => ?_⟩
  have hsplit : va = va / 4096 * 4096 + va % 4096 := (Nat.div_add_mod' va 4096).symm
  have hk : va % 4096 < 4096 := Nat.mod_lt _ (by decide)
  have hne : va / 4096 ≠ c := by
    intro heq
    have hflag := flags_of_userByte hread
    rw [hP, heq, ← hguard, hw.guard] at hflag
    cases hflag
  rw [hsplit] at hread hva ⊢
  generalize va / 4096 = j at *
  generalize va % 4096 = k at *
  by_cases hj : j < c
  · show userByte pt (j * 4096 + k) = some b
    have hx : j * 4096 + k < c * 4096 := by omega
    rw [hbytes j k hj hk, hdata, Nat.add_assoc, getD_code hx, Nat.zero_add, hread]
    rfl
  have hjc : j = c + 1 := by omega
  subst hjc
  show userByte pt ((c + 1) * 4096 + k) = some b
  rw [hstack k hk, hdata, getD_stack hk, hread]
  rfl

/-- A process can be resumed from its image exactly when it is whole and there is memory for it. -/
theorem restored_iff_whole (h : Laid g p.sz p.pt) (hlimit : mem.limit ≤ NPAGES) (q : UProc) :
    (∃ q', kresume mem tables (writeImage p ⟨true, 0, []⟩).data q = .ok q' ∧ Restored p q') ↔
      tables = true ∧ p.sz / PGSIZE ≤ mem.limit ∧ Whole p := by
  constructor
  · rintro ⟨q', hrun, hr⟩
    exact whole_of_restored h hlimit hrun hr
  · rintro ⟨rfl, hmem, hw⟩
    exact hw.restored h hlimit hmem q

end RoundTrip

def allPages : Room := ⟨NPAGES, .charge⟩

def blankProc : UProc := ⟨1, .running, 0, fun _ => none, fun _ => 0, 0, fun _ => 0⟩

theorem exec_onePage : ∃ p, exec allPages [] [⟨0, 0, 0, 4096⟩] (fun _ => 0) (fun _ => 0) blankProc = .ok p ∧ p.pid = 1 ∧
    Whole p ∧ p.sz = 12288 := by
  refine ⟨_, rfl, rfl, ⟨rfl, ?_, ?_, rfl⟩, rfl⟩
  · show 2 * 4096 < 12288
    decide
  · show 320 + (12288 - 4096) ≤ 274432
    decide

/-- A page of heap above the stack puts the guard page third from the top. -/
theorem sbrk_onePage : ∃ p0 p, exec allPages [] [⟨0, 0, 0, 4096⟩] (fun _ => 0) (fun _ => 0) blankProc = .ok p0 ∧
    step p0 (.sbrk 4096 allPages) = some p ∧ p.pid = 1 ∧ p.sz = 16384 ∧ flags p.pt (p.sz / PGSIZE - 2) = some true :=
  ⟨_, _, rfl, rfl, rfl, rfl, rfl⟩

end Xv6.Kernel.Vm
