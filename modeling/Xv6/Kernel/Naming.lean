/-
# Xv6.Kernel.Naming — looking a container up by its name.

`name2cont` walks the table and takes the first slot whose name BEGINS with the string it is given.
`kccreate` refuses a name that is the beginning of one in use, but not a name of which one in use is
the beginning: with `"a"` in slot 2 and slot 1 free again, `"ab"` goes to slot 1 and from then on `"a"`
means the wrong container.  That is the only way the lookup goes wrong.
-/
import Xv6.Kernel.LifeCycle
import Mathlib.Data.List.TakeWhile

namespace Xv6.Kernel

open Function List

variable {s s' : State} {v v' : View} {a : Act} {e : Event} {c d : Cid} {t u : CStr}

/-! ## Names in the table -/

theorem CStr.ext_bytes (h : t.bytes = u.bytes) : t = u := by
  cases t
  cases u
  cases h
  rfl

/-- The bytes from `c->name` up to the first NUL are a string. -/
def Container.nameStr (c : Container) : CStr where
  bytes := ((List.range 20).map c.nameAt).takeWhile (· != 0)
  nul_free b hb := by
    have h := List.mem_takeWhile_imp hb
    exact bne_iff_ne.mp h

def CStr.Fits (t : CStr) : Prop := 1 ≤ t.strlen ∧ t.strlen ≤ 15
deriving Decidable

theorem Container.nameAt_of_lt (x : Container) (hx : x.name = strncpy 16 t) {i : Nat} (hi : i < 16) :
    x.nameAt i = t.get i := by
  simp [Container.nameAt, hi, hx, strncpy]

theorem Container.nameStr_eq (x : Container) (hx : x.name = strncpy 16 t) (ht : t.strlen ≤ 15) : x.nameStr = t := by
  apply CStr.ext_bytes
  have hlen : t.bytes.length ≤ 15 := ht
  apply takeWhile_read t.nul_free (by omega)
  · intro i hi
    rw [x.nameAt_of_lt hx (by omega)]
    exact getD_eq_getElem _ _ hi
  · intro _
    rw [x.nameAt_of_lt hx (by omega)]
    exact t.get_strlen

theorem Container.answersTo_iff (x : Container) (hx : x.name = strncpy 16 u) (ht : t.strlen ≤ 15) :
    x.answersTo t = true ↔ t.bytes <+: u.bytes := by
  have hget : x.answersTo t = true ↔ ∀ i < t.strlen, t.get i = u.get i := by
    rw [Container.answersTo, beq_iff_eq, strncmp_strlen_eq_zero_iff]
    refine forall_congr' fun i => forall_congr' fun hi => ?_
    rw [x.nameAt_of_lt hx (by omega)]
  rw [hget, prefix_iff_getElem]
  constructor
  · intro h
    have hlen : t.strlen ≤ u.strlen := by
      by_contra hlt
      have := h u.strlen (by omega)
      rw [u.get_strlen] at this
      exact CStr.get_ne_zero (by omega) this
    refine ⟨hlen, fun i hi => ?_⟩
    have := h i hi
    rwa [CStr.get, CStr.get, getD_eq_getElem _ _ hi, getD_eq_getElem _ _ (Nat.lt_of_lt_of_le hi hlen)] at this
  · rintro ⟨hlen, h⟩ i hi
    rw [CStr.get, CStr.get, getD_eq_getElem _ _ hi, getD_eq_getElem _ _ (Nat.lt_of_lt_of_le hi hlen)]
    exact h i hi

theorem Container.answersTo_congr {x y : Container} (h : x.name = y.name) (ht : t.strlen ≤ 15) :
    x.answersTo t = y.answersTo t := by
  rw [Bool.eq_iff_iff, Container.answersTo, Container.answersTo, beq_iff_eq, beq_iff_eq,
    strncmp_strlen_eq_zero_iff, strncmp_strlen_eq_zero_iff]
  refine forall_congr' fun i => forall_congr' fun hi => ?_
  have hlt : i < 16 := by omega
  simp [Container.nameAt, hlt, h]

theorem Container.answersTo_noName (x : Container) (hx : x.name = noName) (ht : t.Fits) : x.answersTo t = false := by
  rw [Bool.eq_false_iff, Container.answersTo, ne_eq, beq_iff_eq, strncmp_strlen_eq_zero_iff]
  intro h
  have h0 := h 0 ht.1
  simp only [Container.nameAt, hx, noName] at h0
  exact CStr.get_ne_zero (i := 0) ht.1 h0

/-- The ways in which `kccreate(name)` takes `s` to `s'`, when
`namei(name)` finds `dir`. -/
inductive Creates (name : CStr) (dir : Option Ino) (s : State) : State → Prop
  /-- The name is taken, or the table is full. -/
  | refused (h : name2cont name s = none → freeCid s = none) : Creates name dir s s
  /-- The second lookup misses the slot just filled, which keeps the root directory it had. -/
  | missed {c : Cid} (hfree : freeCid s = some c) (hnew : name2cont name s = none)
      (h : ((s.cont c).created name).answersTo name = false) :
      Creates name dir s (s.setCont c ((s.cont c).created name))
  /-- There is no such directory. -/
  | undone {c : Cid} (hfree : freeCid s = some c) (hnew : name2cont name s = none)
      (h : ((s.cont c).created name).answersTo name = true) (hdir : dir = none) :
      Creates name dir s (s.setCont c ((s.cont c).created name).freed)
  | done {c : Cid} {ip : Ino} (hfree : freeCid s = some c) (hnew : name2cont name s = none)
      (h : ((s.cont c).created name).answersTo name = true) (hdir : dir = some ip) :
      Creates name dir s (s.setCont c { (s.cont c).created name with rootdir := some ip })

/-- **`kccreate`, its two lookups resolved.** The second one finds the slot just filled or none. -/
theorem kccreate_eq (name : CStr) (dir : Option Ino) (s : State) :
    kccreate name dir s =
      match name2cont name s, freeCid s with
      | some _, _ => (s, -1)
      | none, none => (s, -1)
      | none, some c =>
        if ((s.cont c).created name).answersTo name = true then
          match dir with
          | none => (s.setCont c ((s.cont c).created name).freed, -1)
          | some ip => (s.setCont c { (s.cont c).created name with rootdir := some ip }, 1)
        else (s.setCont c ((s.cont c).created name), -1) := by
  unfold kccreate
  cases hnew : name2cont name s with
  | some d => rfl
  | none =>
    cases hfree : freeCid s with
    | none => simp [alloccont, hfree]
    | some c =>
      have hfill : (s.setCont c { s.cont c with state := .crunnable }).setCont c
          (((s.setCont c { s.cont c with state := .crunnable }).cont c).created name) =
          s.setCont c ((s.cont c).created name) := by
        simp [State.setCont, Container.created]
      simp only [Option.isSome_none, Bool.false_eq_true, if_false, alloccont, hfree,
        Option.map_some, hfill, setcontrootdir]
      cases hlook : name2cont name (s.setCont c ((s.cont c).created name)) with
      | none =>
        have hmiss : ((s.cont c).created name).answersTo name = false := by
          simpa using name2cont_none hlook c
        simp [hmiss]
      | some d =>
        have hd := (Fin.find?_eq_some_iff.mp hlook).1
        have hdc : d = c := by
          by_contra hne
          rw [State.setCont_cont, update_of_ne hne, name2cont_none hnew] at hd
          cases hd
        subst hdc
        have hself : ((s.cont d).created name).answersTo name = true := by simpa using hd
        cases dir with
        | none => simp [hself, freecontainer, State.setCont, Container.freed]
        | some ip => simp [hself, State.setCont]

theorem kccreate_creates (name : CStr) (dir : Option Ino) (s : State) : Creates name dir s (kccreate name dir s).1 := by
  rw [kccreate_eq]
  cases hnew : name2cont name s with
  | some d => exact .refused fun h => by rw [hnew] at h; cases h
  | none =>
    cases hfree : freeCid s with
    | none => exact .refused fun _ => hfree
    | some c =>
      dsimp only
      split
      · rename_i hself
        cases hdir : dir with
        | none => exact .undone hfree hnew hself rfl
        | some ip => exact .done hfree hnew hself rfl
      · rename_i hmiss
        exact .missed hfree hnew (Bool.eq_false_iff.mpr hmiss)

/-- A free container has no name and one in use has a name that fits. -/
structure WellNamed (s : State) : Prop where
  free : ∀ c, (s.cont c).state = .cunused → (s.cont c).name = noName
  used : ∀ c, (s.cont c).state ≠ .cunused → ∃ t : CStr, t.Fits ∧ (s.cont c).name = strncpy 16 t

/-- The name of every container in use finds that container. -/
def Exact (s : State) : Prop := ∀ c, (s.cont c).state ≠ .cunused → name2cont (s.cont c).nameStr s = some c
deriving Decidable

theorem WellNamed.name2cont_eq_iff (h : WellNamed s) (hc : (s.cont c).state ≠ .cunused) :
    name2cont (s.cont c).nameStr s = some c ↔ ∀ d < c, (s.cont d).answersTo (s.cont c).nameStr = false := by
  obtain ⟨t, ht, hname⟩ := h.used c hc
  have hself : (s.cont c).answersTo (s.cont c).nameStr = true := by
    rw [(s.cont c).nameStr_eq hname ht.2, (s.cont c).answersTo_iff hname ht.2]
  rw [name2cont, Fin.find?_eq_some_iff]
  constructor
  · rintro ⟨-, hbefore⟩ d hd
    simpa using hbefore d hd
  · intro hbefore
    exact ⟨hself, fun d hd => by simp [hbefore d hd]⟩

/-! ## What keeps the names -/

structure CView.Same (x y : CView) : Prop where
  name : y.name = x.name
  rootdir : y.rootdir = x.rootdir
  isroot : y.isroot = x.isroot
  unused : y.state = .cunused ↔ x.state = .cunused

structure CView.Cleared (y : CView) : Prop where
  name : y.name = noName
  rootdir : y.rootdir = none
  unused : y.state = .cunused

def CView.Kept (x y : CView) : Prop := x.Same y ∨ y.Cleared

theorem CView.Same.refl (x : CView) : x.Same x := ⟨rfl, rfl, rfl, Iff.rfl⟩

theorem CView.Kept.trans {x y z : CView} (h : x.Kept y) (h' : y.Kept z) : x.Kept z := by
  rcases h' with hsame | hcleared
  · rcases h with hsame' | hcleared
    · exact .inl ⟨hsame.name.trans hsame'.name, hsame.rootdir.trans hsame'.rootdir,
        hsame.isroot.trans hsame'.isroot, hsame.unused.trans hsame'.unused⟩
    · exact .inr ⟨hsame.name.trans hcleared.name, hsame.rootdir.trans hcleared.rootdir, hsame.unused.mpr hcleared.unused⟩
  · exact .inr hcleared

theorem Fires.kept (h : Fires v a v') (ha : ∀ c n, a ≠ .create c n) (c : Cid) : (v.cont c).Kept (v'.cont c) := by
  have hfreed : ∀ x : CView, x.freed.Cleared := fun x => ⟨rfl, rfl, rfl⟩
  unfold CView.Kept
  cases h with
  | create hs ip => exact absurd rfl (ha _ _)
  | @recycle d hs =>
    by_cases hd : c = d
    · subst hd
      exact .inr ⟨by simp [CView.recycled, CView.freed], by simp [CView.recycled, CView.freed],
        by simp [CView.recycled, CView.freed]⟩
    · exact .inl ⟨by simp [hd], by simp [hd], by simp [hd], by simp [hd]⟩
  | _ => grind [CView.Same]

/-- Containers all keep their names between two states, or are freed. -/
def NamesKept (s s' : State) : Prop := ∀ c, (s.cont c).view.Kept (s'.cont c).view

theorem namesKept_of_acts (h : Acts (fun _ a => ∀ c n, a ≠ .create c n) (s.view none) (s'.view none)) : NamesKept s s' :=
  h.invariant (I := fun v => ∀ c, (s.cont c).view.Kept (v.cont c))
    (fun _ _ _ hv ha hf c => (hv c).trans (hf.kept ha c)) (fun _ => .inl (.refl _))

theorem NamesKept.wellNamed (h : NamesKept s s') (hw : WellNamed s) : WellNamed s' where
  free c hc := by
    rcases h c with hsame | hcleared
    · exact hsame.name.trans (hw.free c (hsame.unused.mp hc))
    · exact hcleared.name
  used c hc := by
    rcases h c with hsame | hcleared
    · obtain ⟨t, ht, hn⟩ := hw.used c fun hu => hc (hsame.unused.mpr hu)
      exact ⟨t, ht, hsame.name.trans hn⟩
    · exact absurd hcleared.unused hc

/-- Freed containers answer to nothing, so a lookup stays exact. -/
theorem NamesKept.exact (h : NamesKept s s') (hw : WellNamed s) (hx : Exact s) : Exact s' := by
  intro c hc
  rcases h c with hsame | hcleared
  · have hc' : (s.cont c).state ≠ .cunused := fun hu => hc (hsame.unused.mpr hu)
    obtain ⟨t, ht, hn⟩ := hw.used c hc'
    have hn' : (s'.cont c).name = strncpy 16 t := Eq.trans hsame.name hn
    have hold := (hw.name2cont_eq_iff hc').mp (hx c hc')
    rw [(s.cont c).nameStr_eq hn ht.2] at hold
    rw [(h.wellNamed hw).name2cont_eq_iff hc, (s'.cont c).nameStr_eq hn' ht.2]
    intro d hd
    rcases h d with hsame | hcleared
    · rw [Container.answersTo_congr hsame.name ht.2]
      exact hold d hd
    · exact (s'.cont d).answersTo_noName hcleared.name ht
  · exact absurd hcleared.unused hc

/-! ## A new container -/

/-- If `kccreate` makes a container, no container behind the slot it
takes has a name that the new name extends. -/
def Unshadowed (name : CStr) (dir : Option Ino) (s : State) : Prop :=
  dir ≠ none → name2cont name s = none → ∀ c d, freeCid s = some c → c < d →
    (s.cont d).state ≠ .cunused → ¬ (s.cont d).nameStr.bytes <+: name.bytes
deriving Decidable

section Creation

variable {name : CStr} {x : Container}

theorem WellNamed.setCont (hw : WellNamed s) (hfit : name.Fits) (hname : x.name = strncpy 16 name)
    (hused : x.state ≠ .cunused) : WellNamed (s.setCont c x) where
  free d hd := by
    by_cases hdc : d = c
    · subst hdc
      exact absurd (by simpa using hd) hused
    · simp only [State.setCont_cont, update_of_ne hdc] at hd ⊢
      exact hw.free d hd
  used d hd := by
    by_cases hdc : d = c
    · subst hdc
      exact ⟨name, hfit, by simpa using hname⟩
    · simp only [State.setCont_cont, update_of_ne hdc] at hd ⊢
      exact hw.used d hd

/-- **The lookup after a creation**: exact exactly when the new name extends no name behind it. -/
theorem exact_setCont_iff (hw : WellNamed s) (hx : Exact s) (hfit : name.Fits)
    (hname : x.name = strncpy 16 name) (hused : x.state ≠ .cunused)
    (hnew : name2cont name s = none) :
    Exact (s.setCont c x) ↔ ∀ d, c < d → (s.cont d).state ≠ .cunused → ¬ (s.cont d).nameStr.bytes <+: name.bytes := by
  have hw' : WellNamed (s.setCont c x) := hw.setCont hfit hname hused
  have hself : (s.setCont c x).cont c = x := by simp
  have hother : ∀ d, d ≠ c → (s.setCont c x).cont d = s.cont d := fun d hd => by simp [hd]
  have hshort : ∀ d, (s.cont d).state ≠ .cunused → (s.cont d).nameStr.strlen ≤ 15 := by
    intro d hd
    obtain ⟨t, ht, hn⟩ := hw.used d hd
    rw [(s.cont d).nameStr_eq hn ht.2]
    exact ht.2
  constructor
  · intro hexact d hcd hd hpre
    have hdc : d ≠ c := (ne_of_lt hcd).symm
    have hd' : ((s.setCont c x).cont d).state ≠ .cunused := by rwa [hother d hdc]
    have hno := (hw'.name2cont_eq_iff hd').mp (hexact d hd') c hcd
    rw [hself, hother d hdc, Bool.eq_false_iff] at hno
    exact hno ((x.answersTo_iff hname (hshort d hd)).mpr hpre)
  intro hapart d hd
  rw [hw'.name2cont_eq_iff hd]
  intro i hi
  by_cases hdc : d = c
  · -- the new container itself: no slot answered to its name before
    subst hdc
    rw [hself, x.nameStr_eq hname hfit.2, hother i (ne_of_lt hi)]
    exact name2cont_none hnew i
  rw [hother d hdc] at hd ⊢
  by_cases hic : i = c
  · subst hic
    rw [hself, Bool.eq_false_iff, ne_eq, x.answersTo_iff hname (hshort d hd)]
    exact hapart d hi hd
  · rw [hother i hic]
    exact (hw.name2cont_eq_iff hd).mp (hx d hd) i hi

theorem answersTo_created (hfit : name.Fits) (y : Container) : (y.created name).answersTo name = true :=
  ((y.created name).answersTo_iff rfl hfit.2).mpr (prefix_refl _)

theorem namesKept_undone : NamesKept s (s.setCont c ((s.cont c).created name).freed) := by
  intro d
  rw [State.setCont_cont]
  exact Lib.update_cases (.inr ⟨rfl, rfl, rfl⟩) (fun _ _ => .inl (.refl _)) d

theorem WellNamed.kccreate (hw : WellNamed s) (hfit : name.Fits) (dir : Option Ino) :
    WellNamed (kccreate name dir s).1 := by
  have hc := kccreate_creates name dir s
  generalize (Kernel.kccreate name dir s).1 = s' at hc ⊢
  cases hc with
  | refused _ => exact hw
  | missed hfree hnew h | done hfree hnew h hdir => exact hw.setCont hfit rfl (by simp [Container.created])
  | undone hfree hnew h hdir => exact namesKept_undone.wellNamed hw

/-- **`kccreate` keeps the lookup exact exactly when the new name is unshadowed.** -/
theorem kccreate_exact_iff (hw : WellNamed s) (hx : Exact s) (hfit : name.Fits)
    (dir : Option Ino) : Exact (kccreate name dir s).1 ↔ Unshadowed name dir s := by
  have hc := kccreate_creates name dir s
  generalize (kccreate name dir s).1 = s' at hc ⊢
  cases hc with
  | refused h =>
    refine iff_of_true hx fun _ hnew c d hfree => ?_
    rw [h hnew] at hfree
    cases hfree
  | missed hfree hnew h =>
    rw [answersTo_created hfit] at h
    cases h
  | undone hfree hnew h hdir =>
    exact iff_of_true (namesKept_undone.exact hw hx) fun hne => absurd hdir hne
  | @done c ip hfree hnew h hdir =>
    rw [exact_setCont_iff hw hx hfit (c := c) rfl (by simp [Container.created]) hnew]
    constructor
    · intro hapart _ _ e d he hed
      cases hfree.symm.trans he
      exact hapart d hed
    · intro hun d hcd
      exact hun (by simp [hdir]) hnew c d hfree hcd

end Creation

/-! ## Runs -/

/-- A `ccreate` is given a name of 1 to 15 bytes that is unshadowed. -/
def NamedApart (s : State) : Event → Prop
  | .call _ (.ccreate name dir) => name.Fits ∧ Unshadowed name dir s
  | _ => True

instance (s : State) (e : Event) : Decidable (NamedApart s e) := by
  unfold NamedApart
  split <;> infer_instance

theorem step_names (ha : Armed (s.view none)) (h : step s e = some s') :
    NamesKept s s' ∨ ∃ k name dir, e = .call k (.ccreate name dir) ∧ s' = (kccreate name dir s).1 := by
  by_cases hc : ∃ k name dir, e = .call k (.ccreate name dir)
  · obtain ⟨k, name, dir, rfl⟩ := hc
    obtain ⟨p, hp, h⟩ := Option.bind_eq_some_iff.mp h
    split at h
    · -- the caller was killed and exits
      have hlive : ∀ q, s.myproc k = some q → (s.proc q).state ≠ .unused := by
        intro q hq
        cases (ha.trap_live hp).1.symm.trans hq
        exact (ha.trap_live hp).2
      exact .inl (namesKept_of_acts (exit_acts hlive (by simp) (by simp) h))
    · cases h
      exact .inr ⟨k, name, dir, rfl, rfl⟩
  · refine .inl (namesKept_of_acts ((step_acts ha h).mono fun v a hp c n hac => ?_))
    subst hac
    obtain ⟨-, k, dir, he⟩ := hp
    exact hc ⟨k, n, dir, he⟩

theorem wellNamed_boot (free : Nat) : WellNamed (boot free) where
  free c hc := by
    by_cases h0 : c = ROOTCONT
    · subst h0
      simp [boot, rootCont] at hc
    · simp [boot, h0, Container.zero]
  used c hc := by
    by_cases h0 : c = ROOTCONT
    · subst h0
      exact ⟨rootName, by decide, by simp [boot, rootCont]⟩
    · simp [boot, h0, Container.zero] at hc

theorem exact_boot (free : Nat) : Exact (boot free) := by
  intro c hc
  have h0 : c = ROOTCONT := by
    by_contra hne
    simp [boot, hne, Container.zero] at hc
  subst h0
  rw [(wellNamed_boot free).name2cont_eq_iff hc]
  intro d hd
  exact absurd hd (Fin.not_lt_zero d)

theorem reach_exact {free : Nat} (h : Lib.Reach step NamedApart (boot free) s) : WellNamed s ∧ Exact s := by
  have hall : Armed (s.view none) ∧ WellNamed s ∧ Exact s := by
    refine Lib.Reach.invariant (I := fun s => Armed (s.view none) ∧ WellNamed s ∧ Exact s)
      ⟨armed_boot free, wellNamed_boot free, exact_boot free⟩ (fun s e s' hs hok hstep => ?_) h
    have harmed : Armed (s'.view none) := (step_acts hs.1 hstep).invariant (fun _ _ _ hv _ hf => hf.armed hv) hs.1
    refine ⟨harmed, ?_⟩
    rcases step_names hs.1 hstep with hkept | ⟨k, name, dir, rfl, rfl⟩
    · exact ⟨hkept.wellNamed hs.2.1, hkept.exact hs.2.1 hs.2.2⟩
    · exact ⟨hs.2.1.kccreate hok.1 dir, (kccreate_exact_iff hs.2.1 hs.2.2 hok.1 dir).mpr hok.2⟩
  exact hall.2

/-! ## Acting on the named container -/

/-- Between `s` and `s'` only container `c` and its processes change (memory, disk and tick counters
apart). -/
def OnlyOn (c : Cid) (s s' : State) : Prop :=
  (∀ d, d ≠ c → (s'.cont d).view = (s.cont d).view) ∧
    ∀ p, (s.proc p).cont ≠ some c → (s'.proc p).view = (s.proc p).view

def Act.On (a : Act) (c : Cid) : Prop := a = .start c ∨ a = .pause c ∨ a = .resume c ∨ a = .stop c

theorem onlyOn_of_acts (h : Acts (fun _ a => a.On c) (s.view none) (s'.view none)) : OnlyOn c s s' := by
  refine h.invariant (I := fun v => (∀ d, d ≠ c → v.cont d = (s.cont d).view) ∧
    ∀ p, (s.proc p).cont ≠ some c → v.proc p = (s.proc p).view) ?_
    ⟨fun _ _ => rfl, fun _ _ => rfl⟩
  rintro v a v' ⟨hcont, hproc⟩ ha hf
  have hother : ∀ p, (s.proc p).cont ≠ some c → (v.proc p).cont ≠ some c := by
    intro p hp
    rw [hproc p hp]
    exact hp
  refine ⟨fun d hd => ?_, fun p hp => ?_⟩
  · rw [← hcont d hd]
    rcases ha with rfl | rfl | rfl | rfl <;> cases hf <;> grind
  · rw [← hproc p hp]
    have := hother p hp
    rcases ha with rfl | rfl | rfl | rfl <;> cases hf <;> grind

/-- The calls that take a container's name, given `name`, act on `c`. -/
structure ActsOn (name : CStr) (c : Cid) (s : State) : Prop where
  start : ∀ vcname n, OnlyOn c s (kcstart name vcname n s).1
  pause : OnlyOn c s (kcpause name s).1
  resume : OnlyOn c s (kcresume name s).1
  stop : ∀ k s' r, kcstop k name s = some (s', r) → OnlyOn c s s'
  fork : ∀ k, kcfork k name s = Kernel.fork k (some c) s

theorem actsOn_of_name2cont {name : CStr} (h : name2cont name s = some c) : ActsOn name c s := by
  have hc : ∀ d, name2cont name s = some d → d = c := by
    intro d hd
    cases h.symm.trans hd
    rfl
  refine ⟨fun vcname n => ?_, ?_, ?_, fun k s' r hs => ?_, fun k => ?_⟩
  · exact onlyOn_of_acts (kcstart_acts fun d hd => .inl (by rw [hc d hd]))
  · exact onlyOn_of_acts (kcpause_acts fun d hd => .inr (.inl (by rw [hc d hd])))
  · exact onlyOn_of_acts (kcresume_acts fun d hd => .inr (.inr (.inl (by rw [hc d hd]))))
  · exact onlyOn_of_acts (kcstop_acts (fun d hd => .inr (.inr (.inr (by rw [hc d hd])))) hs)
  · rw [kcfork, h]

/-- **Lookup by name is exact** in every run whose `ccreate` calls take unshadowed names of 1 to 15 bytes, and the calls given
a name act on that container only; and a further `ccreate` keeps it so exactly when its name is unshadowed. -/
theorem lookup_exact {free : Nat} (h : Lib.Reach step NamedApart (boot free) s) :
    (∀ c, (s.cont c).state ≠ .cunused →
      name2cont (s.cont c).nameStr s = some c ∧ ActsOn (s.cont c).nameStr c s) ∧
    ∀ (name : CStr) (dir : Option Ino), name.Fits →
      (Exact (kccreate name dir s).1 ↔ Unshadowed name dir s) := by
  obtain ⟨hw, hx⟩ := reach_exact h
  refine ⟨fun c hc => ⟨hx c hc, actsOn_of_name2cont (hx c hc)⟩, fun name dir hfit => ?_⟩
  exact kccreate_exact_iff hw hx hfit dir

/-- `"p"`, `"q"` and `"qr"`, the names in the runs below. -/
def nameP : CStr := .ofBytes [112] rfl
def nameQ : CStr := .ofBytes [113] rfl
def nameQR : CStr := .ofBytes [113, 114] rfl

/-- `"q"` and then `"qr"` behind it: both are found. -/
theorem lookup_exact_behind : ∃ s, Lib.Reach step NamedApart (boot 100) s ∧
    (s.cont 1).name = strncpy 16 nameQ ∧ (s.cont 2).name = strncpy 16 nameQR ∧
    name2cont (s.cont 1).nameStr s = some 1 ∧ name2cont (s.cont 2).nameStr s = some 2 := by
  obtain ⟨s, hs, hp⟩ := Lib.Reach.of_any step NamedApart (boot 100)
    [.sched 0, .sched 1, .call 1 (.ccreate nameQ (some 5)), .call 1 (.ccreate nameQR (some 5))]
    (fun s => (s.cont 1).name == strncpy 16 nameQ && (s.cont 2).name == strncpy 16 nameQR &&
      ((s.cont 1).state != .cunused && (s.cont 2).state != .cunused)) (by decide +kernel)
  simp only [Bool.and_eq_true, beq_iff_eq, bne_iff_ne] at hp
  obtain ⟨⟨h1, h2⟩, h3, h4⟩ := hp
  exact ⟨s, hs, h1, h2, ((lookup_exact hs).1 1 h3).1, ((lookup_exact hs).1 2 h4).1⟩

/-- **A shadowed name.** `"p"` takes slot 1 and `"q"` slot 2; `"p"` is stopped and `"qr"` takes slot 1:
from then on the name of the container in slot 2 finds the one in slot 1. -/
theorem lookup_shadowed : ∃ s, Lib.Reach step (fun _ _ => True) (boot 100) s ∧
    (s.cont 2).state = .cinited ∧ (s.cont 2).nameStr = nameQ ∧
    name2cont (s.cont 2).nameStr s = some 1 := by
  obtain ⟨s, hs, hp⟩ := Lib.Reach.of_any step (fun _ _ => True) (boot 100)
    [.sched 0, .sched 1, .call 1 (.ccreate nameP (some 5)), .call 1 (.ccreate nameQ (some 6)),
      .call 1 (.cstart nameP nameV 0), .call 1 (.cstop nameP), .call 1 (.ccreate nameQR (some 7))]
    (fun s => (s.cont 2).state == .cinited && (s.cont 2).nameStr == nameQ &&
      name2cont (s.cont 2).nameStr s == some 1) (by decide +kernel)
  rw [Bool.and_assoc] at hp
  exact ⟨s, hs, by simpa using hp⟩

end Xv6.Kernel
