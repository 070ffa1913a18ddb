import BitchKernel.Binfmt.Image
import BitchKernel.Mm.KernelHalf

/-!
# The memory of a process

What a process sees of its memory over a run: processes store and fault, the kernel opens and
closes windows on their pages and stores through them, makes directories and gives them back.
`UserRun` remembers, for each directory and address, the byte that was last stored there for
its process. In every state the processor finds that byte, whatever the other processes and the
kernel did in between.
-/

namespace BitchKernel

open Lib

namespace Kernel

def physByte (k : Kernel) (phy : ℕ) : BitVec 8 := k.frameByte (phy / pageSize) (phy % pageSize)

def storePhys (k : Kernel) (phy : ℕ) (v : BitVec 8) : Kernel :=
  k.storeWord (getPageAttr phy) (phy % pageSize / 4)
    (setWordByte (k.page (phy / pageSize) (phy % pageSize / 4)) (phy % 4) v)

/-- The pages of the directories that are still live are where they were, with the words they
had. -/
def KeepsSpaces (k : Kernel) (live : Finset ℕ) (k' : Kernel) (live' : Finset ℕ) : Prop :=
  ∀ f, ∀ d ∈ live', ∀ a, Names k.page live f (.user d a) →
    Names k'.page live' f (.user d a) ∧ k'.page f = k.page f

theorem KeepsUsers.keepsSpaces {k k' : Kernel} {live : Finset ℕ} (h : k.KeepsUsers k' live) :
    k.KeepsSpaces live k' live :=
  fun f d _ a hf => h f d a hf

theorem storePhys_eq (k : Kernel) (phy : ℕ) (v : BitVec 8) :
    ∃ words, k.storePhys phy v = k.storePage (phy / pageSize * pageSize) words ∧
      k.storePhys phy v = { k with page := Function.update k.page (phy / pageSize) words } := by
  have hpage : getPageAttr phy / pageSize = phy / pageSize := Nat.mul_div_cancel _ (by decide)
  unfold storePhys storeWord storePage getPageAttr
  rw [Nat.mul_div_cancel _ (by decide)]
  exact ⟨_, rfl, rfl⟩

theorem physByte_storePhys (k : Kernel) (phy phy' : ℕ) (v : BitVec 8) :
    (k.storePhys phy v).physByte phy' = if phy' = phy then v else k.physByte phy' := by
  -- the same store, through a page of the kernel that shows the frame
  obtain ⟨shown, hshown⟩ : ∃ shown : Kernel, shown = { k with globlMmapPte := fun _ => phy } := ⟨_, rfl⟩
  have hf : shown.getGloblPageAttr (phy / pageSize) = phy / pageSize * pageSize := by
    rw [hshown]
    rfl
  have hsame : (k.storePhys phy v).page = (shown.storeByte phy v).page := by
    unfold storePhys storeByte
    dsimp only
    rw [hf, Nat.mul_div_cancel _ (by decide), hshown]
    rfl
  have hplace : (phy' / pageSize = phy / pageSize ∧ phy' % pageSize = phy % pageSize) ↔ phy' = phy := by
    lia
  unfold physByte
  have hpage : shown.page = k.page := by rw [hshown]
  rw [frameByte_of_page_eq hsame, frameByte_storeByte shown hf, frameByte_of_page_eq hpage]
  simp only [hplace]

/-- What the kernel stores through one of its pages goes to the frame the page shows. -/
theorem storeByte_eq_storePhys (k : Kernel) {attr f : ℕ}
    (hf : k.getGloblPageAttr (attr / pageSize) = f * pageSize) (v : BitVec 8) :
    k.storeByte attr v = k.storePhys (f * pageSize + attr % pageSize) v := by
  have hpage : (f * pageSize + attr % pageSize) / pageSize = f := by lia
  have hoffset : (f * pageSize + attr % pageSize) % pageSize = attr % pageSize := by lia
  have hbyte : (f * pageSize + attr % pageSize) % 4 = attr % 4 := by lia
  unfold storeByte storePhys getPageAttr
  dsimp only
  rw [hf, hpage, hoffset, hbyte, Nat.mul_div_cancel _ (by decide)]

end Kernel

theorem Names.user_lt {page : ℕ → ℕ → ℕ} {live : Finset ℕ} {f d a : ℕ}
    (h : Names page live f (.user d a)) : a < pageOffset / pageSize := by
  obtain ⟨t, ⟨-, hm, -⟩, -⟩ := h
  unfold pdeIndex at hm
  lia

namespace Owned

variable {b : KernelBoot} {k k' : Kernel} {live : Finset ℕ} {d attr : ℕ}

/-! ## The calls -/

theorem ummHandler_keepsUsers (h : Owned b k live) (hd : d ∈ live)
    (hnone : attr < pageOffset → ∀ x, ¬ Names k.page live x (.user d (attr / pageSize))) :
    k.KeepsUsers (k.ummHandler attr (d * pageSize)).2 live := by
  have howned := (h.of_ummHandler hd attr).1
  rcases h.ummHandler_outcome hd attr with ⟨pmm, heq⟩ |
    ⟨hattr, f, -, -, pmm, page, tables, heq, hentered⟩
  · rw [heq]
    exact .of_page_eq rfl
  · rw [heq] at howned ⊢
    exact howned.keepsUsers_of_entered hentered rfl (hnone hattr)

theorem ummMmapKmm_keepsUsers (h : Owned b k live) (hd : d ∈ live) {fuel len r : ℕ}
    (hsafe : k.SafeWindow attr len (d * pageSize))
    (hcall : k.ummMmapKmm fuel attr len (d * pageSize) = some (r, k')) : k.KeepsUsers k' live := by
  rcases Kernel.ummMmapKmm_cases hcall with ⟨-, -, rfl⟩ | ⟨p, hin, -, hone | ⟨hmany, hwindow⟩⟩
  · exact .of_page_eq rfl
  · exact h.ummMmapOne_keepsUsers hd hone.2
  · rcases hsafe with hout | hone | ⟨hscan, heach⟩
    · exact absurd hout (Nat.not_lt_of_le hin)
    · exact absurd hone hmany
    · have hcount := ummPageCount_lt attr len
      refine (h.of_vmmMmapPdePage hd (by omega) hscan (I := fun kMid => k.KeepsUsers kMid live)
        (fun _ _ hC => hC) (fun kMid attr phyAttr k₁ hMid hI hC hpage => hI.trans ?_)
        (fun _ _ _ _ hI => hI) (.of_page_eq rfl) heach hwindow).2
      by_cases hattr : attr < pageOffset
      · exact hMid.pdePage_keepsUsers hd (hC hattr) hpage
      · obtain ⟨r, pmm, heq, -⟩ := hMid.toTabled.pdePage_high (Nat.le_of_not_lt hattr) (d * pageSize)
        obtain rfl := (Prod.mk.inj (heq.symm.trans hpage)).2
        exact .of_page_eq rfl

theorem ummAllocPde_keepsSpaces (h : Owned b k live) {live' : Finset ℕ}
    (hlive : live' = if k.ummAllocPde.1 = 0 then live else insert (k.ummAllocPde.1 / pageSize) live) :
    k.KeepsSpaces live k.ummAllocPde.2 live' := by
  rcases h.ummAllocPde_cases with ⟨pmm, heq, -⟩ | ⟨d, hfree, pmm, page, heq, harena, hd, -, -, hnames⟩
  · rw [heq] at hlive ⊢
    rw [hlive, if_pos rfl]
    exact Kernel.KeepsUsers.keepsSpaces (.of_page_eq rfl)
  · have hne := Boot.mul_pageSize_ne_zero harena
    have hpage := k.ummAllocPde_page
    rw [heq] at hlive hpage ⊢
    dsimp only at hlive hpage ⊢
    rw [if_neg hne, Nat.mul_div_cancel _ (by decide)] at hlive
    rw [Nat.mul_div_cancel _ (by decide)] at hpage
    obtain ⟨-, hpage⟩ := hpage.resolve_left fun hzero => hne hzero.1
    intro f d' _ a hf
    refine ⟨?_, ?_⟩
    · rw [hlive]
      exact (hnames f _).2 (.inl hf)
    · dsimp only
      rw [hpage]
      refine Function.update_of_ne ?_ _ _
      rintro rfl
      exact h.unnamed_of_free hfree _ hf

theorem ummFree_keepsSpaces (h : Owned b k live) (hd : d ∈ live) :
    k.KeepsSpaces live (k.ummFree (d * pageSize)) (live.erase d) := by
  obtain ⟨pmm, heq, -⟩ := h.ummFree_eq hd
  rw [heq]
  intro f d' hd' a hf
  exact ⟨Names.erase_live.2 ⟨hf, Finset.ne_of_mem_erase hd'⟩, rfl⟩

end Owned

/-! ## Runs of processes -/

/-- A call of the kernel, a page fault of a process, and a byte stored by a process or by the
kernel through a window on the page. A process is named by its directory. -/
inductive UserOp
  | call (call : MemCall)
  | fault (d attr : ℕ)
  | store (d attr : ℕ) (v : BitVec 8)
  | window (q d attr : ℕ) (v : BitVec 8)

/-- The state, and the byte that was last stored for the process of a directory at an
address. -/
structure UserRun extends UmmRun where
  wrote : ℕ → ℕ → Option (BitVec 8)

namespace UserRun

/-- What the kernel calls on its own: page faults are a case of their own, and a page it fills
is none of a process. -/
def OwnCall (s : UserRun) : MemCall → Prop
  | .ummHandler _ _ => False
  | .store table _ => ∀ d ∈ s.live, ∀ a < pageOffset / pageSize, ¬ s.kernel.Maps d a (table / pageSize)
  | _ => True

/-- A byte stored for the process of `d` at `attr`. -/
def record (s : UserRun) (d attr : ℕ) (v : BitVec 8) : ℕ → ℕ → Option (BitVec 8) :=
  Function.update s.wrote d (Function.update (s.wrote d) attr (some v))

/-- The address a process finds behind `attr`. -/
def reach (s : UserRun) (write : Bool) (d attr : ℕ) : Option ℕ :=
  s.kernel.walk ⟨true, write⟩ (s.kernel.entriesAt (d * pageSize)) attr

def Step (b : KernelBoot) (s : UserRun) : UserOp → UserRun → Prop
  | .call call, s' =>
      ((ummMachine b).restrict UmmRun.SafeCall).step s.toUmmRun call s'.toUmmRun ∧ s.OwnCall call ∧
        s'.wrote = fun d => if d ∈ s.live ∧ d ∈ s'.live then s.wrote d else fun _ => none
  | .fault d attr, s' => d ∈ s.live ∧ attr < 2 ^ 32 ∧ (∃ write, s.reach write d attr = none) ∧
      s' = ⟨⟨(s.kernel.ummHandler attr (d * pageSize)).2, s.live⟩, s.wrote⟩
  | .store d attr v, s' => d ∈ s.live ∧ ∃ phy, s.reach true d attr = some phy ∧
      s' = ⟨⟨s.kernel.storePhys phy v, s.live⟩, s.record d attr v⟩
  | .window q d attr v, s' => d ∈ s.live ∧ attr < pageOffset ∧ s.kernel.Coherent q attr 1 d ∧
      s' = ⟨⟨s.kernel.storeByte q v, s.live⟩, s.record d attr v⟩

end UserRun

/-- The runs of processes on the machine `b`, from `vmm_init` on. -/
def userMachine (b : KernelBoot) : Machine UserRun UserOp where
  init s := (ummMachine b).init s.toUmmRun ∧ s.wrote = fun _ _ => none
  step s op s' := s.Step b op s'

namespace UserRun

variable {b : KernelBoot} {s s' : UserRun} {d attr : ℕ} {v : BitVec 8}

/-- The process of each live directory has its bytes. -/
def Found (s : UserRun) : Prop :=
  ∀ d ∈ s.live, ∀ attr v, s.wrote d attr = some v →
    ∃ f, Names s.kernel.page s.live f (.user d (attr / pageSize)) ∧
      s.kernel.frameByte f (attr % pageSize) = v

/-- A byte stored on a page of the process is a store of the memory management, and replaces
the byte of that process at that address alone. -/
theorem of_storePhys (h : Owned b s.kernel s.live) (hfound : s.Found) {f : ℕ}
    (hf : Names s.kernel.page s.live f (.user d (attr / pageSize))) :
    (∃ call, (ummMachine b).step s.toUmmRun call
      ⟨s.kernel.storePhys (f * pageSize + attr % pageSize) v, s.live⟩ ∧ s.toUmmRun.SafeCall call) ∧
    Found ⟨⟨s.kernel.storePhys (f * pageSize + attr % pageSize) v, s.live⟩, s.record d attr v⟩ := by
  have hpage : (f * pageSize + attr % pageSize) / pageSize = f := by lia
  have hpde := hf.pde_mem
  have hun : ∀ u : Use, u.Structural → ¬ Names s.kernel.page s.live f u := by
    intro u hu hfu
    rw [h.single f u _ hfu hf] at hu
    exact hu
  have hbyte := s.kernel.physByte_storePhys (f * pageSize + attr % pageSize) (v := v)
  obtain ⟨words, hstore, heq⟩ := s.kernel.storePhys_eq (f * pageSize + attr % pageSize) v
  rw [hpage] at hstore heq
  refine ⟨⟨.store (f * pageSize) words, ⟨⟨?_, fun d' hd' m hm => ?_⟩, 0, ⟨rfl, hstore⟩, rfl⟩, trivial⟩, ?_⟩
  · rw [Nat.mul_div_cancel _ (by decide)]
    exact fun hlive => hun (.dir f) trivial ⟨hlive, rfl⟩
  · rw [h.loadWord_dir hd', Nat.mul_div_cancel _ (by decide)]
    refine (h.entry d' hd' m hm).imp_right ?_
    rintro ⟨t, ht⟩ hsame
    rw [ht, getPageAttr_userEntry, Nat.mul_div_cancel _ (by decide)] at hsame
    exact hun (.table d' m) trivial ⟨hd', hm, hsame ▸ ht⟩
  · intro d' hd' attr' v' hwrote
    have hnames : ∀ g u, Names (s.kernel.storePhys (f * pageSize + attr % pageSize) v).page s.live g u ↔
        Names s.kernel.page s.live g u := by
      intro g u
      rw [heq]
      exact Names.update hun words g u
    have hplace : ∀ g a, Kernel.physByte (s.kernel.storePhys (f * pageSize + attr % pageSize) v)
        (g * pageSize + a % pageSize) =
        Kernel.frameByte (s.kernel.storePhys (f * pageSize + attr % pageSize) v) g (a % pageSize) := by
      intro g a
      have hdiv : (g * pageSize + a % pageSize) / pageSize = g := by lia
      have hmod : (g * pageSize + a % pageSize) % pageSize = a % pageSize := by lia
      unfold Kernel.physByte
      rw [hdiv, hmod]
    dsimp only
    by_cases hself : d' = d ∧ attr' = attr
    · obtain ⟨rfl, rfl⟩ := hself
      have hv : v = v' := by
        unfold record at hwrote
        dsimp only at hwrote
        rw [Function.update_self, Function.update_self] at hwrote
        exact Option.some.inj hwrote
      refine ⟨f, (hnames f _).2 hf, ?_⟩
      rw [← hplace, hbyte, if_pos rfl, hv]
    · have hwrote' : s.wrote d' attr' = some v' := by
        unfold record at hwrote
        dsimp only at hwrote
        by_cases hd : d' = d
        · rw [hd, Function.update_self, Function.update_of_ne fun ha => hself ⟨hd, ha⟩] at hwrote
          rw [hd]
          exact hwrote
        · rw [Function.update_of_ne hd] at hwrote
          exact hwrote
      obtain ⟨g, hg, hgbyte⟩ := hfound d' hd' attr' v' hwrote'
      refine ⟨g, (hnames g _).2 hg, ?_⟩
      rw [← hplace, hbyte, if_neg fun hsame => ?_]
      · have hdiv : (g * pageSize + attr' % pageSize) / pageSize = g := by lia
        have hmod : (g * pageSize + attr' % pageSize) % pageSize = attr' % pageSize := by lia
        unfold Kernel.physByte
        rw [hdiv, hmod]
        exact hgbyte
      -- one place in memory is one address of one process
      · obtain rfl : g = f := by lia
        have huse := h.single g _ _ hg hf
        injection huse with hd ha
        exact hself ⟨hd, by lia⟩

theorem found_of_keepsSpaces (hfound : s.Found) {k' : Kernel} {live' : Finset ℕ}
    {wrote' : ℕ → ℕ → Option (BitVec 8)} (hkept : s.kernel.KeepsSpaces s.live k' live')
    (hwrote : ∀ d ∈ live', ∀ attr v, wrote' d attr = some v → d ∈ s.live ∧ s.wrote d attr = some v) :
    Found ⟨⟨k', live'⟩, wrote'⟩ := by
  intro d hd attr v hv
  obtain ⟨hold, hsame⟩ := hwrote d hd attr v hv
  obtain ⟨f, hf, hbyte⟩ := hfound d hold attr v hsame
  obtain ⟨hf', hwords⟩ := hkept f d hd _ hf
  refine ⟨f, hf', ?_⟩
  unfold Kernel.frameByte at hbyte ⊢
  dsimp only
  rw [hwords]
  exact hbyte

theorem keepsSpaces_of_call (h : Owned b s.kernel s.live) {call : MemCall} (hown : s.OwnCall call)
    (hsafe : s.toUmmRun.SafeCall call) (hstep : (ummMachine b).step s.toUmmRun call s'.toUmmRun) :
    s.kernel.KeepsSpaces s.live s'.kernel s'.live := by
  obtain ⟨hen, r, hcall, hlive⟩ := hstep
  cases call with
  | ummAllocPde =>
      obtain ⟨rfl, hk⟩ := hcall
      rw [hk]
      exact h.ummAllocPde_keepsSpaces hlive
  | ummMmapKmm attr len pde =>
      obtain ⟨-, -, d, hd, rfl⟩ := hen
      obtain ⟨fuel, hcall⟩ := hcall
      rw [hlive]
      exact (h.ummMmapKmm_keepsUsers hd hsafe hcall).keepsSpaces
  | ummUmmapKmm attr len =>
      obtain ⟨pte, pos, count, heq, -⟩ := Owned.ummUmmapKmm_direct s.kernel hen.1 len
      rw [hlive, hcall.2, heq]
      exact Kernel.KeepsUsers.keepsSpaces (.of_page_eq rfl)
  | ummFree pde =>
      obtain ⟨d, hd, rfl⟩ := hen
      unfold UmmRun.liveAfter at hlive
      dsimp only at hlive
      rw [Nat.mul_div_cancel _ (by decide)] at hlive
      rw [hlive, hcall.2]
      exact h.ummFree_keepsSpaces hd
  | store table words =>
      have hun := h.unnamed_of_store hen
      rw [hlive, hcall.2]
      refine Kernel.KeepsUsers.keepsSpaces fun f d a hf => ⟨(Names.update hun words f _).2 hf, ?_⟩
      refine Function.update_of_ne ?_ _ _
      rintro rfl
      have ha := hf.user_lt
      exact hown d hf.pde_mem a ha ((h.maps_iff hf.pde_mem ha).2 hf)
  | ummHandler attr pde => exact absurd hown id
  | _ => exact absurd hen id

/-- The state of the memory management is one of its own runs, and the processes find their
bytes. -/
theorem found_of_reachable (hs : (userMachine b).Reachable s) :
    ((ummMachine b).restrict UmmRun.SafeCall).Reachable s.toUmmRun ∧ s.Found := by
  induction hs with
  | init hinit =>
      refine ⟨.init hinit.1, fun d _ attr v hv => ?_⟩
      rw [hinit.2] at hv
      exact absurd hv.symm (Option.some_ne_none v)
  | @step s s' op hs hstep ih =>
      obtain ⟨hreach, hfound⟩ := ih
      have h := Owned.of_reachable hreach
      cases op with
      | call call =>
          obtain ⟨⟨hsafe, hcall⟩, hown, hwrote⟩ := hstep
          refine ⟨.step hreach ⟨hsafe, hcall⟩, ?_⟩
          refine found_of_keepsSpaces hfound (keepsSpaces_of_call h hown hsafe hcall)
            fun d hd attr v hv => ?_
          rw [hwrote] at hv
          dsimp only at hv
          by_cases hboth : d ∈ s.live ∧ d ∈ s'.live
          · rw [if_pos hboth] at hv
            exact ⟨hboth.1, hv⟩
          · rw [if_neg hboth] at hv
            exact absurd hv.symm (Option.some_ne_none v)
      | fault d attr =>
          obtain ⟨hd, hattr, ⟨write, hfault⟩, rfl⟩ := hstep
          have hnone : attr < pageOffset →
              ∀ x, ¬ Names s.kernel.page s.live x (.user d (attr / pageSize)) := by
            intro hlow x hx
            have hwalk := (h.toTabled.walk_low hd hlow ⟨true, write⟩ _).2
              ⟨x, (h.maps_iff hd (by lia)).2 hx, rfl⟩
            exact absurd (hwalk.symm.trans hfault) (Option.some_ne_none _)
          refine ⟨.step (a := .ummHandler attr (d * pageSize)) hreach
            ⟨trivial, UmmRun.step_ummHandler hattr hd⟩, ?_⟩
          exact found_of_keepsSpaces hfound (h.ummHandler_keepsUsers hd hnone).keepsSpaces
            fun d' hd' attr' v hv => ⟨hd', hv⟩
      | store d attr v =>
          obtain ⟨hd, phy, hphy, rfl⟩ := hstep
          have hattr := (user_access_confined hreach hd hphy).1
          obtain ⟨f, hf, rfl⟩ := (h.toTabled.walk_low hd hattr _ phy).1 hphy
          obtain ⟨⟨call, hcall, hsafe⟩, hfound'⟩ :=
            of_storePhys (v := v) h hfound ((h.maps_iff hd (by lia)).1 hf)
          exact ⟨.step hreach ⟨hsafe, hcall⟩, hfound'⟩
      | window q d attr v =>
          obtain ⟨hd, hattr, hcoherent, rfl⟩ := hstep
          obtain ⟨hoffset, f, -, hshown, hf⟩ := hcoherent 0 Nat.one_pos
          obtain ⟨⟨call, hcall, hsafe⟩, hfound'⟩ :=
            of_storePhys (v := v) h hfound ((h.maps_iff hd (by lia)).1 hf)
          have hstore := s.kernel.storeByte_eq_storePhys hshown v
          rw [Nat.add_zero] at hoffset hstore
          rw [Nat.add_zero] at hoffset
          rw [hoffset] at hstore
          rw [hstore]
          exact ⟨.step hreach ⟨hsafe, hcall⟩, hfound'⟩

end UserRun

/-- **The memory of a process is its own.** In every run of safe calls in which processes store,
fault and have the kernel open windows on their pages, and in which directories come and go, a
process finds at each address the byte that was last stored there for it. -/
theorem user_memory_private {b : KernelBoot} {s : UserRun} (hs : (userMachine b).Reachable s) {d : ℕ}
    (hd : d ∈ s.live) {attr : ℕ} {v : BitVec 8} (hwrote : s.wrote d attr = some v) :
    ∃ phy, s.reach false d attr = some phy ∧ s.kernel.physByte phy = v := by
  obtain ⟨hreach, hfound⟩ := UserRun.found_of_reachable hs
  have h := (Owned.of_reachable hreach).toTabled
  obtain ⟨f, hf, hbyte⟩ := hfound d hd attr v hwrote
  have ha := hf.user_lt
  have hattr : attr < pageOffset := by lia
  have hpage : (f * pageSize + attr % pageSize) / pageSize = f := by lia
  have hoffset : (f * pageSize + attr % pageSize) % pageSize = attr % pageSize := by lia
  refine ⟨f * pageSize + attr % pageSize,
    (h.walk_low hd hattr _ _).2 ⟨f, (h.maps_iff hd ha).2 hf, rfl⟩, ?_⟩
  unfold Kernel.physByte
  rw [hpage, hoffset, hbyte]

section Example

theorem pdeRun_user {b : KernelBoot} (hpages : b.memBasePage + 1 < b.memPageCount)
    (hdirect : b.memBasePage < b.dmmapPageCount) :
    ∃ wrote, (userMachine b).Reachable ⟨pdeRun b, wrote⟩ := by
  have hbase := b.le_memBasePage
  obtain ⟨pmm, -, heq⟩ := ummAllocPde_vmmInit hpages hdirect
  have hinit : (userMachine b).Reachable
      ⟨⟨Kernel.vmmInit b (fun _ => 0) (fun _ => 0) fun _ _ => 0, ∅⟩, fun _ _ => none⟩ :=
    .init ⟨⟨fun _ => 0, fun _ => 0, fun _ _ => 0, rfl⟩, rfl⟩
  refine ⟨_, .step (a := .call .ummAllocPde) hinit ⟨⟨trivial, trivial, _, ⟨rfl, rfl⟩, ?_⟩, trivial, rfl⟩⟩
  unfold UmmRun.liveAfter pdeRun
  dsimp only
  rw [heq, if_neg (Nat.mul_ne_zero (by omega) (by decide)), Nat.mul_div_cancel _ (by decide)]
  rfl

/-- Before its first fault the process has no page. -/
theorem pdeRun_unreached (wrote : ℕ → ℕ → Option (BitVec 8)) :
    UserRun.reach ⟨pdeRun smallBoot, wrote⟩ true 449 0x1000 = none := by
  obtain ⟨hbase, hcount, hdmmap⟩ := smallBoot_pages
  have howned := Owned.of_reachable (pdeRun_reachable (b := smallBoot) (by rw [hbase, hcount]; decide)
    (by rw [hbase, hdmmap]; decide))
  have hempty := pdeRun_getUmmValue (b := smallBoot) (by rw [hbase, hcount]; decide)
    (by rw [hbase, hdmmap]; decide) (by decide : 0x1000 < pageOffset)
  have hd : 449 ∈ (pdeRun smallBoot).live := by
    unfold pdeRun
    rw [hbase]
    exact Finset.mem_singleton_self 449
  rw [hbase] at hempty
  refine Option.eq_none_iff_forall_ne_some.2 fun phy hphy => ?_
  obtain ⟨f, hf, -⟩ := (howned.toTabled.walk_low hd (by decide) _ phy).1 hphy
  exact howned.unnamed_of_unmapped hd (by decide : 0x1000 < pageOffset) (by rw [hempty]; rfl) f
    ((howned.maps_iff hd (by decide)).1 hf)

/-- A process faults on a page, stores a byte there and finds it. -/
theorem user_memory_private_store : ∃ s, (userMachine smallBoot).Reachable s ∧ 449 ∈ s.live ∧
    s.wrote 449 0x1000 = some 7 ∧ ∃ phy, s.reach false 449 0x1000 = some phy ∧ s.kernel.physByte phy = 7 := by
  have hlive : (pdeRun smallBoot).live = {449} := by
    unfold pdeRun
    rw [smallBoot_pages.1]
  obtain ⟨hbase, hcount, hdmmap⟩ := smallBoot_pages
  obtain ⟨wrote, hfirst⟩ := pdeRun_user (b := smallBoot) (by rw [hbase, hcount]; decide)
    (by rw [hbase, hdmmap]; decide)
  have hfault : (userMachine smallBoot).Reachable ⟨faultRun, wrote⟩ := by
    refine .step (a := .fault 449 0x1000) hfirst ⟨?_, by decide, ⟨true, pdeRun_unreached wrote⟩, ?_⟩
    · rw [hlive]
      exact Finset.mem_singleton_self 449
    · unfold faultRun
      rw [hlive]
  obtain ⟨f, hf⟩ := faultRun_maps
  have hwalk := ((Owned.of_reachable faultRun_reachable).toTabled.walk_low faultRun_live
    (by decide : 0x1000 < pageOffset) ⟨true, true⟩ _).2 ⟨f, hf, rfl⟩
  have hstored : (userMachine smallBoot).Reachable
      ⟨⟨faultRun.kernel.storePhys (f * pageSize + 0x1000 % pageSize) 7, faultRun.live⟩,
        UserRun.record ⟨faultRun, wrote⟩ 449 0x1000 7⟩ :=
    .step (a := .store 449 0x1000 7) hfault ⟨faultRun_live, _, hwalk, rfl⟩
  have hwrote : UserRun.record ⟨faultRun, wrote⟩ 449 0x1000 7 449 0x1000 = some 7 := by
    unfold UserRun.record
    rw [Function.update_self, Function.update_self]
  exact ⟨_, hstored, faultRun_live, hwrote, user_memory_private hstored faultRun_live hwrote⟩

end Example

end BitchKernel
