import BitchKernel.Binfmt.ElfShort
import BitchKernel.Mm.KernelHalf

/-!
# The image of a program

`load_program` writes a segment through a window of the kernel on the pages of the process. A
byte stored through a window that shows what the directory has is the byte the user finds at
the address, and no other byte of the user changes. So after a load the user finds the bytes
of the file, and zeros behind them, in each segment, and elsewhere what was there.
-/

namespace BitchKernel

open Lib

namespace Kernel

/-! ## Bytes behind an address of the user -/

/-- The byte at the offset `o` of the frame `f`. -/
def frameByte (k : Kernel) (f o : ℕ) : BitVec 8 :=
  BitVec.ofNat 8 (k.page f (o / 4) / 256 ^ (o % 4))

/-- The user of the directory `d` finds the byte `v` at the address `a`. -/
def UserByte (k : Kernel) (d a : ℕ) (v : BitVec 8) : Prop :=
  ∃ f, k.Maps d (a / pageSize) f ∧ k.frameByte f (a % pageSize) = v

theorem setWordByte_byte (word : ℕ) {i j : ℕ} (hi : i < 4) (hj : j < 4) (b : BitVec 8) :
    setWordByte word i b / 256 ^ j % 256 = if j = i then b.toNat else word / 256 ^ j % 256 := by
  have hb := b.isLt
  unfold setWordByte
  obtain rfl | rfl | rfl | rfl : i = 0 ∨ i = 1 ∨ i = 2 ∨ i = 3 := by omega
  all_goals obtain rfl | rfl | rfl | rfl : j = 0 ∨ j = 1 ∨ j = 2 ∨ j = 3 := by omega
  all_goals split <;> omega

theorem storeByte_eq (k : Kernel) {attr f : ℕ} (hf : k.getGloblPageAttr (attr / pageSize) = f * pageSize)
    (b : BitVec 8) : ∃ words, k.storeByte attr b = { k with page := Function.update k.page f words } := by
  unfold storeByte storeWord storePage
  dsimp only
  rw [hf, Nat.mul_div_cancel _ (by decide)]
  exact ⟨_, rfl⟩

theorem frameByte_storeByte (k : Kernel) {attr f : ℕ}
    (hf : k.getGloblPageAttr (attr / pageSize) = f * pageSize) (b : BitVec 8) (g o : ℕ) :
    (k.storeByte attr b).frameByte g o =
      if g = f ∧ o = attr % pageSize then b else k.frameByte g o := by
  have hplace : o = attr % pageSize ↔ o / 4 = attr % pageSize / 4 ∧ o % 4 = attr % 4 := by lia
  unfold frameByte storeByte storeWord storePage
  dsimp only
  rw [hf, Nat.mul_div_cancel _ (by decide)]
  by_cases hg : g = f
  · rw [hg, Function.update_self]
    by_cases hword : o / 4 = attr % pageSize / 4
    · rw [hword, Function.update_self]
      refine BitVec.eq_of_toNat_eq ?_
      have hbyte := setWordByte_byte (k.page f (attr % pageSize / 4)) (Nat.mod_lt attr (by decide : 0 < 4))
        (Nat.mod_lt o (by decide : 0 < 4)) b
      rw [BitVec.toNat_ofNat]
      refine hbyte.trans ?_
      by_cases hslot : o % 4 = attr % 4
      · rw [if_pos hslot, if_pos ⟨rfl, hplace.2 ⟨hword, hslot⟩⟩]
      · rw [if_neg hslot, if_neg fun h => hslot (hplace.1 h.2).2, BitVec.toNat_ofNat]
    · rw [Function.update_of_ne hword, if_neg fun h => hword (hplace.1 h.2).1]
  · rw [Function.update_of_ne hg, if_neg fun h => hg h.1]

theorem frameByte_of_page_eq {k k' : Kernel} (h : k'.page = k.page) (f o : ℕ) :
    k'.frameByte f o = k.frameByte f o := by
  unfold frameByte
  rw [h]

theorem Coherent.drop {k : Kernel} {p attr len d : ℕ} (h : k.Coherent p attr len d) {n : ℕ} :
    k.Coherent (p + n) (attr + n) (len - n) d := by
  intro i hi
  obtain ⟨hoffset, f, hf⟩ := h (n + i) (by omega)
  rw [← Nat.add_assoc, ← Nat.add_assoc] at hoffset hf
  exact ⟨hoffset, f, hf⟩

theorem Coherent.take {k : Kernel} {p attr len d : ℕ} (h : k.Coherent p attr len d) {n : ℕ}
    (hn : n ≤ len) : k.Coherent p attr n d := fun i hi => h i (Nat.lt_of_lt_of_le hi hn)

end Kernel

namespace Settled

variable {b : KernelBoot} {k k' : Kernel} {live : Finset ℕ} {d : ℕ}

theorem maps_iff (h : Settled b k live) {a f : ℕ} (hd : d ∈ live) (ha : a < pageOffset / pageSize) :
    k.Maps d a f ↔ Names k.page live f (.user d a) :=
  h.owned.toTabled.maps_iff hd ha

/-- The bytes of a buffer, stored through a window that shows what the directory has, are those
the user finds at the addresses of the window; every other byte of the user stays. -/
theorem storeBytes (h : Settled b k live) (hd : d ∈ live) {q lo : ℕ} (bytes : Bytes) (count : ℕ)
    (hin : lo + count ≤ pageOffset) (hcoherent : k.Coherent q lo count d) :
    ∃ page, k.storeBytes q bytes count = { k with page := page } ∧ Settled b { k with page := page } live ∧
      (∀ f u, Names page live f u ↔ Names k.page live f u) ∧
      ∀ f a, Names k.page live f (.user d (a / pageSize)) →
        Kernel.frameByte { k with page := page } f (a % pageSize) =
          if lo ≤ a ∧ a < lo + count then bytes (a - lo) else k.frameByte f (a % pageSize) := by
  induction count with
  | zero =>
      refine ⟨k.page, rfl, h, fun _ _ => Iff.rfl, fun f a _ => ?_⟩
      rw [if_neg (by omega)]
  | succ count ih =>
      obtain ⟨page, heq, hsettled, hnames, hbytes⟩ := ih (by omega) (hcoherent.take (Nat.le_succ count))
      obtain ⟨hoffset, f, hpage, hshown, hmaps⟩ := hcoherent count (Nat.lt_succ_self count)
      have haddr : add32 q count = q + count := add32_of_lt (by lia)
      have hf : Names page live f (.user d ((lo + count) / pageSize)) :=
        (hnames f _).2 ((h.maps_iff hd (by lia)).1 hmaps)
      have hun : ∀ u : Use, u.Structural → ¬ Names page live f u := by
        intro u hu hfu
        rw [hsettled.owned.single f u _ hfu hf] at hu
        exact hu
      have hshown' : Kernel.getGloblPageAttr { k with page := page } ((q + count) / pageSize) =
          f * pageSize := hshown
      obtain ⟨words, hstore⟩ := Kernel.storeByte_eq { k with page := page } hshown' (bytes count)
      have hbyte := Kernel.frameByte_storeByte { k with page := page } hshown' (bytes count)
      rw [hstore] at hbyte
      refine ⟨Function.update page f words, ?_, ⟨h.dmmap, hsettled.owned.of_store hun words⟩,
        fun g u => ?_, fun g a hg => ?_⟩
      · rw [Kernel.storeBytes, heq, haddr, hstore]
      · exact (Names.update hun words g u).trans (hnames g u)
      · rw [hbyte]
        -- an offset of the frame belongs to one address of the user
        by_cases hplace : g = f ∧ a % pageSize = (q + count) % pageSize
        · obtain ⟨rfl, hmod⟩ := hplace
          have huse := hsettled.owned.single g _ _ ((hnames g _).2 hg) hf
          injection huse with _ hdiv
          obtain rfl : a = lo + count := by lia
          rw [if_pos ⟨rfl, hmod⟩, if_pos (by omega), Nat.add_sub_cancel_left]
        · rw [if_neg hplace, hbytes g a hg]
          have hne : a ≠ lo + count := by
            rintro rfl
            exact hplace ⟨Names.eq ((hnames g _).2 hg) hf, hoffset.symm⟩
          by_cases hbelow : lo ≤ a ∧ a < lo + count
          · rw [if_pos hbelow, if_pos (by omega)]
          · rw [if_neg hbelow, if_neg (by omega)]

theorem coherent_of_names (h : Settled b k live) (h' : Settled b k' live) (hd : d ∈ live)
    (hpte : k'.globlMmapPte = k.globlMmapPte)
    (hnames : ∀ f u, Names k'.page live f u ↔ Names k.page live f u) {p attr len : ℕ}
    (hin : attr + len ≤ pageOffset) (hcoherent : k.Coherent p attr len d) :
    k'.Coherent p attr len d := by
  intro i hi
  obtain ⟨hoffset, f, hpage, hshown, hmaps⟩ := hcoherent i hi
  have ha : (attr + i) / pageSize < pageOffset / pageSize := by lia
  refine ⟨hoffset, f, hpage, ?_, ?_⟩
  · unfold Kernel.getGloblPageAttr
    rw [hpte]
    exact hshown
  · exact (h'.maps_iff hd ha).2 ((hnames f _).2 ((h.maps_iff hd ha).1 hmaps))

end Settled

/-! ## A segment -/

/-- The addresses a segment occupies. -/
def ProgramHeader.Covers (pheader : ProgramHeader) (a : ℕ) : Prop :=
  pheader.pVaddr ≤ a ∧ a < pheader.pVaddr + pheader.size

/-- The byte of a segment at the offset `i`: one of the file, or zero. -/
def ProgramHeader.byteAt (pheader : ProgramHeader) (file : Bytes) (i : ℕ) : BitVec 8 :=
  if i < pheader.pFilesz then file (pheader.pOffset + i) else 0

/-- `file_read` fills the buffer with exactly the bytes of the file that are asked for. -/
def FileIo.Delivers (io : FileIo) (file : Bytes) (count offect : ℕ) : Prop :=
  ∀ buf, ∀ i < count, io.fill buf count offect i = file (offect + i)

/-- The `n`-th program header of a file. -/
def fileHeader (file : Bytes) (offect size n : ℕ) : ProgramHeader :=
  programHeaderOf fun i => file (headerOffect offect size n + i)

theorem pheaderAt_eq {io : FileIo} {stack : ℕ → Bytes} {file : Bytes} {offect size n : ℕ}
    (h : io.Delivers file sizeofProgramHeader (headerOffect offect size n)) :
    pheaderAt io stack offect size n = fileHeader file offect size n := by
  have hle : ∀ pos, pos + 4 ≤ sizeofProgramHeader →
      (io.fill (stack n) sizeofProgramHeader (headerOffect offect size n)).le pos 4 =
        Bytes.le (fun i => file (headerOffect offect size n + i)) pos 4 := by
    intro pos hpos
    exact Bytes.le_congr fun i hi => h (stack n) (pos + i) (by omega)
  unfold pheaderAt fileHeader programHeaderOf
  rw [hle 0 (by decide), hle 4 (by decide), hle 8 (by decide), hle 16 (by decide), hle 20 (by decide)]

theorem ProgramHeader.pFilesz_le_size (pheader : ProgramHeader) : pheader.pFilesz ≤ pheader.size := by
  unfold ProgramHeader.size
  split <;> omega

namespace Settled

variable {b : KernelBoot} {k k' : Kernel} {live : Finset ℕ} {d : ℕ} {io : FileIo} {file : Bytes}

theorem storeSegment (h : Settled b k live) (hd : d ∈ live) {r : ℕ} {pheader : ProgramHeader}
    {bytes : Bytes} (hin : pheader.pVaddr + pheader.size ≤ pageOffset)
    (hcoherent : k.Coherent r pheader.pVaddr pheader.size d) (hr : r < 2 ^ 32)
    (hbytes : ∀ i < pheader.pFilesz, bytes i = file (pheader.pOffset + i)) :
    ∃ page, (k.storeBytes r bytes pheader.pFilesz).storeBytes (add32 r pheader.pFilesz) (fun _ => 0)
        (sub32 pheader.size pheader.pFilesz) = { k with page := page } ∧
      Settled b { k with page := page } live ∧
      (∀ f u, Names page live f u ↔ Names k.page live f u) ∧
      ∀ f a, Names k.page live f (.user d (a / pageSize)) →
        Kernel.frameByte { k with page := page } f (a % pageSize) =
          if pheader.pVaddr ≤ a ∧ a < pheader.pVaddr + pheader.size then
            pheader.byteAt file (a - pheader.pVaddr)
          else k.frameByte f (a % pageSize) := by
  have hle := pheader.pFilesz_le_size
  have hend : r + pheader.pFilesz < 2 ^ 32 := by
    by_cases hzero : pheader.size = 0
    · omega
    · obtain ⟨-, f, hpage, -⟩ := hcoherent (pheader.size - 1) (by omega)
      lia
  obtain ⟨page₁, heq₁, h₁, hnames₁, hbytes₁⟩ :=
    h.storeBytes hd bytes pheader.pFilesz (by omega) (hcoherent.take hle)
  have hrest := h.coherent_of_names h₁ hd rfl hnames₁ hin hcoherent
  obtain ⟨page₂, heq₂, h₂, hnames₂, hbytes₂⟩ := h₁.storeBytes hd (fun _ => 0)
    (pheader.size - pheader.pFilesz) (by omega) (hrest.drop (n := pheader.pFilesz))
  refine ⟨page₂, ?_, h₂, fun f u => (hnames₂ f u).trans (hnames₁ f u), fun f a hf => ?_⟩
  · rw [heq₁, add32_of_lt hend, sub32_of_le hle (by lia), heq₂]
  · rw [hbytes₂ f a ((hnames₁ f _).2 hf), hbytes₁ f a hf]
    unfold ProgramHeader.byteAt
    by_cases hfile : pheader.pVaddr ≤ a ∧ a < pheader.pVaddr + pheader.pFilesz
    · rw [if_neg (by omega), if_pos hfile, if_pos (by omega), if_pos (by omega), hbytes _ (by omega)]
    · by_cases hzero : pheader.pVaddr + pheader.pFilesz ≤ a ∧ a < pheader.pVaddr + pheader.size
      · rw [if_pos (by omega), if_pos (by omega), if_neg (by omega)]
      · rw [if_neg (by omega), if_neg hfile, if_neg (by omega)]

/-- What `load_program` does for a segment below `PAGE_OFFSET`: the user finds its bytes, and
every other byte is where it was. -/
theorem loadSegment (h : Settled b k live) (hmemory : b.memPageCount ≤ dmmapPageMax) (hd : d ∈ live)
    {fuel : ℕ} {pheader : ProgramHeader} {uses : List PathUse}
    (hin : pheader.pVaddr + pheader.size ≤ pageOffset)
    (hrun : k.HasRun (Kernel.ummPageCount pheader.pVaddr pheader.size))
    (htables : k.FindsTables pheader.pVaddr pheader.size (d * pageSize))
    (hread : io.Delivers file pheader.pFilesz pheader.pOffset)
    (hload : BitchKernel.loadSegment (Kernel.userWindows fuel (d * pageSize)) io k pheader =
      some (true, k', uses)) :
    Settled b k' live ∧ (∀ i < pheader.size, k'.UserByte d (pheader.pVaddr + i) (pheader.byteAt file i)) ∧
      ∀ a < pageOffset, ¬ pheader.Covers a → ∀ v, k.UserByte d a v → k'.UserByte d a v := by
  unfold BitchKernel.loadSegment Kernel.userWindows at hload
  obtain ⟨⟨r, k₁⟩, hwindow, hload⟩ := Option.bind_eq_some_iff.1 hload
  dsimp only at hwindow hload
  by_cases hr : r = 0
  · rw [if_pos hr] at hload
    exact absurd (Prod.mk.inj (Option.some.inj hload)).1 (by simp)
  rw [if_neg hr] at hload
  obtain ⟨answer, -, hload⟩ := Option.map_eq_some_iff.1 hload
  by_cases hanswer : answer = -1
  · rw [if_pos hanswer] at hload
    exact absurd (Prod.mk.inj hload).1 (by simp)
  rw [if_neg hanswer] at hload
  obtain ⟨h₁, hkeeps, hcoherent, hlt⟩ := h.ummMmapKmm hmemory hd hin hrun htables hwindow hr
  obtain ⟨page, hstores, h₂, hnames, hbytes⟩ := h₁.storeSegment hd hin hcoherent hlt (hread _)
  rw [hstores] at hload
  obtain ⟨h', hpage⟩ := h₂.ummUmmapKmm hlt pheader.size
  rw [(Prod.mk.inj (Prod.mk.inj hload).2).1] at h' hpage
  -- what the user finds in a page that the window left in its place
  have hmaps : ∀ f a, a < pageOffset → Names k₁.page live f (.user d (a / pageSize)) →
      k'.Maps d (a / pageSize) f := by
    intro f a ha hf
    refine (h'.maps_iff hd (by lia)).2 ?_
    rw [hpage]
    exact (hnames f _).2 hf
  have hframe := Kernel.frameByte_of_page_eq hpage
  refine ⟨h', fun i hi => ?_, fun a ha hout v hv => ?_⟩
  · obtain ⟨-, f, -, -, hshown⟩ := hcoherent i hi
    have hf := (h₁.maps_iff hd (by lia)).1 hshown
    refine ⟨f, hmaps f _ (by omega) hf, ?_⟩
    rw [hframe, hbytes f _ hf, if_pos (by omega), Nat.add_sub_cancel_left]
  · obtain ⟨f, hfound, hbyte⟩ := hv
    obtain ⟨hf, hwords⟩ := hkeeps f d _ ((h.maps_iff hd (by lia)).1 hfound)
    unfold ProgramHeader.Covers at hout
    refine ⟨f, hmaps f a ha hf, ?_⟩
    rw [hframe, hbytes f a hf, if_neg hout, ← hbyte]
    unfold Kernel.frameByte
    rw [hwords]

theorem getUmmValue_of_names (h : Settled b k live) (hd : d ∈ live) {attr f : ℕ}
    (hattr : attr < pageOffset) (hf : Names k.page live f (.user d (attr / pageSize))) :
    getPageAttr (k.getUmmValue (pageBase attr) (d * pageSize)) = f * pageSize := by
  have hpage : pageBase attr / pageSize = attr / pageSize := by
    unfold pageBase
    exact Nat.mul_div_cancel _ (by decide)
  have hbase : pageBase attr < pageOffset :=
    Nat.lt_of_le_of_lt (Nat.div_mul_le_self attr pageSize) hattr
  rcases h.owned.toTabled.getUmmValue_cases hd hbase with ⟨-, hnone⟩ | ⟨g, hg, hnames⟩
  · rw [hpage] at hnone
    exact absurd hf (hnone f)
  · rw [hpage] at hnames
    obtain rfl := Names.eq hnames hf
    exact (congrArg getPageAttr hg).trans (getPageAttr_userEntry g)

theorem ummMmapKmm_of_mapped (h : Settled b k live) (hmemory : b.memPageCount ≤ dmmapPageMax)
    (hd : d ∈ live) {attr len f : ℕ} (hin : attr + len ≤ pageOffset)
    (hone : Kernel.ummPageCount attr len = 1) (hf : Names k.page live f (.user d (attr / pageSize)))
    (hattr : attr < pageOffset) (fuel : ℕ) :
    k.ummMmapKmm fuel attr len (d * pageSize) = some (f * pageSize + attr % pageSize, k) ∧
      0 < f ∧ f < k.dmmapPageCount := by
  have hall : b.memPageCount ≤ k.dmmapPageCount := by
    rw [h.dmmap]
    unfold KernelBoot.dmmapPageCount
    split <;> omega
  obtain ⟨hlo, hhi⟩ := Boot.mem_arena.1 (h.owned.taken f _ hf).1
  have hbase := b.le_memBasePage
  have hlt := b.memPageCount_lt
  have hvalue := h.getUmmValue_of_names hd hattr hf
  have hzero : f * pageSize ≠ 0 := Nat.mul_ne_zero (by omega) (by decide)
  refine ⟨?_, by omega, by omega⟩
  unfold Kernel.ummMmapKmm Kernel.ummMmapOne Kernel.vmmMmapPage
  dsimp only
  rw [add32_of_lt (by lia), if_neg (Nat.not_lt.2 hin), if_pos hone, hvalue, if_neg hzero,
    Nat.mul_div_cancel _ (by decide), if_pos (by omega), Option.map_some]
  dsimp only
  rw [if_neg hzero, Tabled.windowReturn_eq (by lia) (by lia)]

theorem findsTables_of_names (h : Settled b k live) (hd : d ∈ live) {attr len f : ℕ}
    (hattr : attr < pageOffset) (hone : Kernel.ummPageCount attr len = 1)
    (hf : Names k.page live f (.user d (attr / pageSize))) : k.FindsTables attr len (d * pageSize) := by
  unfold Kernel.FindsTables
  rw [if_pos hone]
  intro hunmapped
  have hbase := b.le_memBasePage
  have hlo := (Boot.mem_arena.1 (h.owned.taken f _ hf).1).1
  rw [h.getUmmValue_of_names hd hattr hf] at hunmapped
  exact absurd hunmapped (Nat.mul_ne_zero (by omega) (by decide))

theorem loadSegment_of_mapped (h : Settled b k live) (hmemory : b.memPageCount ≤ dmmapPageMax)
    (hd : d ∈ live) (pheader : ProgramHeader) (fuel : ℕ) {f : ℕ} {r : ℤ}
    (hin : pheader.pVaddr + pheader.size ≤ pageOffset) (hattr : pheader.pVaddr < pageOffset)
    (hone : Kernel.ummPageCount pheader.pVaddr pheader.size = 1)
    (hf : Names k.page live f (.user d (pheader.pVaddr / pageSize))) (hrun : k.HasRun 1)
    (hread : io.Delivers file pheader.pFilesz pheader.pOffset)
    (hanswer : io.answer pheader.pFilesz pheader.pOffset = some r) (hr : r ≠ -1) :
    ∃ page, BitchKernel.loadSegment (Kernel.userWindows fuel (d * pageSize)) io k pheader =
        some (true, { k with page := page }, [.read, .read]) ∧
      Settled b { k with page := page } live ∧
        ∀ g u, Names page live g u ↔ Names k.page live g u := by
  obtain ⟨hwindow, hpos, hdirect⟩ := h.ummMmapKmm_of_mapped hmemory hd hin hone hf hattr fuel
  have hpages := k.page_count
  have hreturn : f * pageSize + pheader.pVaddr % pageSize ≠ 0 :=
    Nat.ne_of_gt (Nat.add_pos_left (Nat.mul_pos hpos (by decide)) _)
  obtain ⟨-, -, hcoherent, hlt⟩ := h.ummMmapKmm hmemory hd hin (by rwa [hone])
    (h.findsTables_of_names hd hattr hone hf) hwindow hreturn
  obtain ⟨page, hstores, h', hnames, -⟩ := h.storeSegment hd hin hcoherent hlt
    (hread ((Kernel.userWindows fuel (d * pageSize)).load k (f * pageSize + pheader.pVaddr % pageSize)))
  refine ⟨page, ?_, h', hnames⟩
  have hclose : Kernel.ummUmmapKmm { k with page := page } (f * pageSize + pheader.pVaddr % pageSize)
      pheader.size = { k with page := page } := by
    unfold Kernel.ummUmmapKmm Kernel.vmmUmmapPage pageBase
    dsimp only
    rw [Nat.mul_div_cancel _ (by decide), if_neg (by lia)]
  unfold BitchKernel.loadSegment
  have hopens : (Kernel.userWindows fuel (d * pageSize)).ummMmapKmm k pheader.pVaddr pheader.size =
    some (f * pageSize + pheader.pVaddr % pageSize, k) := hwindow
  rw [hopens, Option.bind_some]
  dsimp only
  rw [if_neg hreturn, hanswer, Option.map_some, if_neg hr]
  unfold Kernel.userWindows at hstores ⊢
  dsimp only at hstores ⊢
  rw [hstores, hclose]

end Settled

/-! ## The loop over the program headers -/

section Load

variable {σ : Type*} {w : UserWindows σ} {io : FileIo} {stack : ℕ → Bytes} {offect size : ℕ}

theorem loadLoop_last {rem n : ℕ} {s s' : σ} {r : ℤ} {uses : List PathUse} (hr : r ≠ -1)
    (h : loadLoop w io stack offect size (rem + 1) n s = some (r, s', uses)) :
    ∃ t uses₁ uses₂, loadLoop w io stack offect size rem n s = some (toSigned (n + rem), t, uses₁) ∧
      loadRound w io stack offect size (n + rem) t = some (true, s', uses₂) := by
  induction rem generalizing n s uses with
  | zero =>
      rw [loadLoop] at h
      obtain ⟨⟨on, t, uses'⟩, hround, h⟩ := Option.bind_eq_some_iff.1 h
      cases on with
      | false => exact absurd (Prod.mk.inj (Option.some.inj h)).1.symm hr
      | true =>
          dsimp only at h
          rw [if_pos rfl] at h
          obtain ⟨⟨r', t', uses''⟩, hrest, heq⟩ := Option.map_eq_some_iff.1 h
          obtain ⟨-, hstate⟩ := Prod.mk.inj (Option.some.inj hrest)
          obtain ⟨-, hstate'⟩ := Prod.mk.inj heq
          obtain rfl := (Prod.mk.inj hstate).1
          obtain rfl := (Prod.mk.inj hstate').1
          exact ⟨s, [], uses', rfl, hround⟩
  | succ rem ih =>
      rw [loadLoop] at h
      obtain ⟨⟨on, t, uses'⟩, hround, h⟩ := Option.bind_eq_some_iff.1 h
      cases on with
      | false => exact absurd (Prod.mk.inj (Option.some.inj h)).1.symm hr
      | true =>
          obtain ⟨⟨r', t', uses''⟩, hrest, heq⟩ := Option.map_eq_some_iff.1 h
          obtain ⟨rfl, hstate⟩ := Prod.mk.inj heq
          obtain ⟨rfl, -⟩ := Prod.mk.inj hstate
          obtain ⟨tLast, uses₁, uses₂, hloop, hlast⟩ := ih hrest
          rw [Nat.add_right_comm, Nat.add_assoc] at hloop hlast
          refine ⟨tLast, uses' ++ uses₁, uses₂, ?_, hlast⟩
          rw [loadLoop_round hround, hloop]
          rfl

theorem loadRound_on {n : ℕ} {s s' : σ} {uses : List PathUse}
    (h : loadRound w io stack offect size n s = some (true, s', uses)) :
    ((pheaderAt io stack offect size n).pType ≠ ptLoad ∧ s' = s) ∨
      ((pheaderAt io stack offect size n).pType = ptLoad ∧
        ∃ uses', loadSegment w io s (pheaderAt io stack offect size n) = some (true, s', uses')) := by
  unfold loadRound at h
  obtain ⟨r, -, h⟩ := Option.bind_eq_some_iff.1 h
  by_cases hr : r = -1
  · rw [if_pos hr] at h
    exact absurd (Prod.mk.inj (Option.some.inj h)).1 (by simp)
  rw [if_neg hr] at h
  dsimp only at h
  by_cases hload : (pheaderAt io stack offect size n).pType = ptLoad
  · rw [if_pos hload] at h
    obtain ⟨⟨on, t, uses'⟩, hsegment, heq⟩ := Option.map_eq_some_iff.1 h
    obtain ⟨rfl, hstate⟩ := Prod.mk.inj heq
    obtain ⟨rfl, -⟩ := Prod.mk.inj hstate
    exact .inr ⟨hload, uses', hsegment⟩
  · rw [if_neg hload] at h
    exact .inl ⟨hload, (Prod.mk.inj (Prod.mk.inj (Option.some.inj h)).2).1.symm⟩

end Load

/-- The segments of the first `num` program headers end below `PAGE_OFFSET` and are apart. -/
structure SegmentsApart (file : Bytes) (offect size num : ℕ) : Prop where
  below : ∀ n < num, (fileHeader file offect size n).pType = ptLoad →
    (fileHeader file offect size n).pVaddr + (fileHeader file offect size n).size ≤ pageOffset
  apart : ∀ m < num, ∀ n < num, m ≠ n → (fileHeader file offect size m).pType = ptLoad →
    (fileHeader file offect size n).pType = ptLoad → ∀ a, (fileHeader file offect size m).Covers a →
      ¬ (fileHeader file offect size n).Covers a

/-- `file_read` delivers the first `num` program headers and their segments. -/
def FileIo.DeliversImage (io : FileIo) (file : Bytes) (offect size num : ℕ) : Prop :=
  ∀ n < num, io.Delivers file sizeofProgramHeader (headerOffect offect size n) ∧
    ((fileHeader file offect size n).pType = ptLoad →
      io.Delivers file (fileHeader file offect size n).pFilesz (fileHeader file offect size n).pOffset)

/-- What the user of `d` finds when the first `num` program headers of a file were loaded in the
state `k`: the bytes of each segment, and in the pages that were there what there was. -/
structure ImageBuilt (file : Bytes) (offect size num d : ℕ) (k k' : Kernel) : Prop where
  segments : ∀ n < num, (fileHeader file offect size n).pType = ptLoad →
    ∀ i < (fileHeader file offect size n).size,
      k'.UserByte d ((fileHeader file offect size n).pVaddr + i) ((fileHeader file offect size n).byteAt file i)
  rest : ∀ a < pageOffset, (∀ n < num, (fileHeader file offect size n).pType = ptLoad →
    ¬ (fileHeader file offect size n).Covers a) → ∀ v, k.UserByte d a v → k'.UserByte d a v

/-- The window for a segment finds a free run and the page tables it needs. -/
def Kernel.HasRoom (k : Kernel) (d : ℕ) (pheader : ProgramHeader) : Prop :=
  k.HasRun (Kernel.ummPageCount pheader.pVaddr pheader.size) ∧
    k.FindsTables pheader.pVaddr pheader.size (d * pageSize)

section Program

variable {b : KernelBoot} {k k' : Kernel} {live : Finset ℕ} {d fuel offect size num : ℕ} {io : FileIo}
  {stack : ℕ → Bytes} {file : Bytes} {uses : List PathUse}

namespace ImageBuilt

theorem zero : ImageBuilt file offect size 0 d k k :=
  ⟨fun n hn => absurd hn (Nat.not_lt_zero n), fun _ _ _ _ hv => hv⟩

theorem skip (h : ImageBuilt file offect size num d k k')
    (hskip : (fileHeader file offect size num).pType ≠ ptLoad) :
    ImageBuilt file offect size (num + 1) d k k' := by
  refine ⟨fun n hn hload => ?_, fun a ha hout v hv => h.rest a ha (fun n hn => hout n (by omega)) v hv⟩
  rcases Nat.lt_succ_iff_lt_or_eq.1 hn with hn | rfl
  · exact h.segments n hn hload
  · exact absurd hload hskip

theorem load {k₁ : Kernel} (h : ImageBuilt file offect size num d k k₁)
    (hapart : SegmentsApart file offect size (num + 1))
    (hload : (fileHeader file offect size num).pType = ptLoad)
    (hsegment : ∀ i < (fileHeader file offect size num).size,
      k'.UserByte d ((fileHeader file offect size num).pVaddr + i)
        ((fileHeader file offect size num).byteAt file i))
    (hkept : ∀ a < pageOffset, ¬ (fileHeader file offect size num).Covers a → ∀ v,
      k₁.UserByte d a v → k'.UserByte d a v) :
    ImageBuilt file offect size (num + 1) d k k' := by
  refine ⟨fun n hn hloadn i hi => ?_, fun a ha hout v hv => ?_⟩
  · rcases Nat.lt_succ_iff_lt_or_eq.1 hn with hlt | rfl
    · have hbelow := hapart.below n hn hloadn
      refine hkept _ (by omega) ?_ _ (h.segments n hlt hloadn i hi)
      exact hapart.apart n hn num (Nat.lt_succ_self num) (by omega) hloadn hload _
        ⟨Nat.le_add_right _ i, by omega⟩
    · exact hsegment i hi
  · exact hkept a ha (hout num (Nat.lt_succ_self num) hload) v
      (h.rest a ha (fun n hn => hout n (by omega)) v hv)

end ImageBuilt

theorem Settled.loadLoop (h : Settled b k live) (hmemory : b.memPageCount ≤ dmmapPageMax) (hd : d ∈ live)
    (hnum : num + 1 < 2 ^ 32) (hapart : SegmentsApart file offect size num)
    (hreads : io.DeliversImage file offect size num)
    (hroom : ∀ n < num, (fileHeader file offect size n).pType = ptLoad → ∀ kMid uses,
      loadProgram (Kernel.userWindows fuel (d * pageSize)) io stack offect size n k =
        some (toSigned n, kMid, uses) → kMid.HasRoom d (fileHeader file offect size n))
    (hload : loadProgram (Kernel.userWindows fuel (d * pageSize)) io stack offect size num k =
      some (toSigned num, k', uses)) :
    Settled b k' live ∧ ImageBuilt file offect size num d k k' := by
  induction num generalizing k' uses with
  | zero =>
      obtain ⟨-, hstate⟩ := Prod.mk.inj (Option.some.inj hload)
      obtain rfl := (Prod.mk.inj hstate).1
      exact ⟨h, .zero⟩
  | succ num ih =>
      obtain ⟨kMid, uses₁, uses₂, hprogram, hround⟩ :=
        loadLoop_last (by unfold toSigned; split <;> omega) hload
      rw [Nat.zero_add] at hprogram hround
      have hlast := Nat.lt_succ_self num
      obtain ⟨hMid, hbuilt⟩ := ih (by omega)
        ⟨fun n hn => hapart.below n (by omega), fun m hm n hn => hapart.apart m (by omega) n (by omega)⟩
        (fun n hn => hreads n (by omega)) (fun n hn => hroom n (by omega)) hprogram
      obtain ⟨hheader, hsegment⟩ := hreads num hlast
      have hcases := loadRound_on hround
      rw [pheaderAt_eq hheader] at hcases
      rcases hcases with ⟨hskip, rfl⟩ | ⟨htype, uses', hcall⟩
      · exact ⟨hMid, hbuilt.skip hskip⟩
      · obtain ⟨hrun, htables⟩ := hroom num hlast htype kMid uses₁ hprogram
        obtain ⟨h', hbytes, hkept⟩ := hMid.loadSegment hmemory hd (hapart.below num hlast htype) hrun
          htables (hsegment htype) hcall
        exact ⟨h', hbuilt.load hapart htype hbytes hkept⟩

/-- **What a load leaves.** On a machine whose memory fits the direct map, in every state whose
directories own their pages, for every file whose segments end below `PAGE_OFFSET` and are apart:
when `load_program` returns the number of program headers, where each window found a free run
and its page tables and `file_read` delivered what it was asked for, the user finds in each segment
the bytes of the file and zeros behind them, and what was there in the rest of the pages that
were mapped. -/
theorem load_program_builds_image (hmemory : b.memPageCount ≤ dmmapPageMax) (h : Settled b k live)
    (hd : d ∈ live) (hnum : num + 1 < 2 ^ 32) (hapart : SegmentsApart file offect size num)
    (hreads : io.DeliversImage file offect size num)
    (hroom : ∀ n < num, (fileHeader file offect size n).pType = ptLoad → ∀ kMid uses,
      loadProgram (Kernel.userWindows fuel (d * pageSize)) io stack offect size n k =
        some (toSigned n, kMid, uses) → kMid.HasRoom d (fileHeader file offect size n))
    (hload : loadProgram (Kernel.userWindows fuel (d * pageSize)) io stack offect size num k =
      some (toSigned num, k', uses)) :
    ImageBuilt file offect size num d k k' :=
  (h.loadLoop hmemory hd hnum hapart hreads hroom hload).2

end Program

section Example

open Kernel

/-- A file whose first and third program headers ask for its first four bytes, and four zeros, at
`0x1000` and at `0x1100`. -/
def smallImage : Bytes := fun i =>
  if i = 0 then 1 else if i = 9 then 0x10 else if i = 16 then 4 else if i = 20 then 8
  else if i = 64 then 1 else if i = 73 then 0x11 else if i = 80 then 4 else if i = 84 then 8 else 0

theorem fileHeader_smallImage : fileHeader smallImage 0 32 0 = ⟨ptLoad, 0, 0x1000, 4, 8⟩ ∧
    (fileHeader smallImage 0 32 1).pType ≠ ptLoad ∧
      fileHeader smallImage 0 32 2 = ⟨ptLoad, 0, 0x1100, 4, 8⟩ := by
  have hplace : headerOffect 0 32 0 = 0 ∧ headerOffect 0 32 1 = 32 ∧ headerOffect 0 32 2 = 64 := by
    with_unfolding_all decide
  obtain ⟨hzero, hone, htwo⟩ := hplace
  unfold fileHeader
  rw [hzero, hone, htwo]
  exact ⟨rfl, by with_unfolding_all decide, rfl⟩

theorem wholeFile_delivers (file : Bytes) (count offect : ℕ) :
    (wholeFile file).Delivers file count offect := fun _ _ hi => if_pos hi

theorem smallImage_apart : SegmentsApart smallImage 0 32 3 := by
  obtain ⟨hfirst, hnull, hlast⟩ := fileHeader_smallImage
  have hcases : ∀ n < 3, (fileHeader smallImage 0 32 n).pType = ptLoad → n = 0 ∨ n = 2 := by
    intro n hn hload
    by_contra hneither
    obtain rfl : n = 1 := by omega
    exact hnull hload
  have hsizes : ProgramHeader.size ⟨ptLoad, 0, 0x1000, 4, 8⟩ = 8 ∧
      ProgramHeader.size ⟨ptLoad, 0, 0x1100, 4, 8⟩ = 8 := ⟨rfl, rfl⟩
  refine ⟨fun n hn hload => ?_, fun m hm n hn hne hload hload' a hcovers hcovers' => ?_⟩
  · rcases hcases n hn hload with rfl | rfl
    · rw [hfirst]
      decide
    · rw [hlast]
      decide
  · unfold ProgramHeader.Covers at hcovers hcovers'
    rcases hcases m hm hload with rfl | rfl <;> rcases hcases n hn hload' with rfl | rfl <;>
      simp only [hfirst, hlast, hsizes] at hcovers hcovers' <;> omega

/-- The load of this file when the page `0x1000` is there: a program header that is no segment
stands between the two segments. -/
theorem load_program_builds_image_two : ∃ fuel k' uses,
    loadProgram (userWindows fuel (449 * pageSize)) (wholeFile smallImage) (fun _ _ => 0) 0 32 3
        faultRun.kernel = some (3, k', uses) ∧
      k'.UserByte 449 0x1000 1 ∧ k'.UserByte 449 0x1004 0 ∧ k'.UserByte 449 0x1100 1 := by
  obtain ⟨hbase, hcount, hdmmap⟩ := smallBoot_pages
  have hmemory : smallBoot.memPageCount ≤ dmmapPageMax := by rw [hcount]; decide
  have h := Settled.of_reachable faultRun_reachable
  have hd := faultRun_live
  obtain ⟨f, hmaps⟩ := faultRun_maps
  have hf := (h.maps_iff hd (by decide)).1 hmaps
  have hrun := faultRun_hasRun
  obtain ⟨hfirst, hnull, hlast⟩ := fileHeader_smallImage
  have hread : ∀ n, pheaderAt (wholeFile smallImage) (fun _ _ => 0) 0 32 n = fileHeader smallImage 0 32 n :=
    fun n => pheaderAt_eq (wholeFile_delivers _ _ _)
  have hone : ∀ attr, attr = 0x1000 ∨ attr = 0x1100 →
      ummPageCount attr (ProgramHeader.size ⟨ptLoad, 0, attr, 4, 8⟩) = 1 := by
    rintro attr (rfl | rfl) <;> with_unfolding_all decide
  generalize faultRun.kernel = k at *
  have hopens : ∀ n pheader, fileHeader smallImage 0 32 n = pheader → ∀ {k k' : Kernel},
      loadSegment (userWindows 0 (449 * pageSize)) (wholeFile smallImage) k pheader =
        some (true, k', [.read, .read]) → pheader.pType = ptLoad →
      loadRound (userWindows 0 (449 * pageSize)) (wholeFile smallImage) (fun _ _ => 0) 0 32 n k =
        some (true, k', [.read, .read, .read]) := by
    intro n pheader hheader k k' hsegment hload
    refine loadRound_of_segment (r := 32) rfl (by decide) ?_ ?_
    · rw [hread, hheader]
      exact hload
    · rw [hread, hheader]
      exact hsegment
  obtain ⟨page, hsegment, h', hnames⟩ := h.loadSegment_of_mapped hmemory hd
    ⟨ptLoad, 0, 0x1000, 4, 8⟩ 0 (by decide) (by decide) (hone _ (.inl rfl)) hf hrun
    (wholeFile_delivers smallImage _ _) rfl (by decide)
  have hf' := (hnames f _).2 hf
  obtain ⟨page', hsegment', -, -⟩ := h'.loadSegment_of_mapped hmemory hd
    ⟨ptLoad, 0, 0x1100, 4, 8⟩ 0 (by decide) (by decide) (hone _ (.inr rfl)) hf' hrun
    (wholeFile_delivers smallImage _ _) rfl (by decide)
  have hround := hopens 0 _ hfirst hsegment rfl
  have hround' : loadRound (userWindows 0 (449 * pageSize)) (wholeFile smallImage) (fun _ _ => 0) 0 32 1
      { k with page := page } = some (true, { k with page := page }, [.read]) := by
    refine loadRound_of_ne (r := 32) rfl (by decide) ?_
    rw [hread]
    exact hnull
  have hround'' := hopens 2 _ hlast hsegment' rfl
  have htwo : loadProgram (userWindows 0 (449 * pageSize)) (wholeFile smallImage) (fun _ _ => 0) 0 32 2 k =
      some (toSigned 2, { k with page := page }, [.read, .read, .read, .read]) := by
    unfold loadProgram
    rw [loadLoop_round hround, loadLoop_round hround']
    rfl
  have hthree : ∃ uses, loadProgram (userWindows 0 (449 * pageSize)) (wholeFile smallImage) (fun _ _ => 0)
      0 32 3 k = some (toSigned 3, { k with page := page' }, uses) := by
    unfold loadProgram
    rw [loadLoop_round hround, loadLoop_round hround', loadLoop_round hround'']
    exact ⟨_, rfl⟩
  obtain ⟨uses, hload⟩ := hthree
  have hbuilt := load_program_builds_image hmemory h hd (by decide) smallImage_apart
    (fun n _ => ⟨wholeFile_delivers _ _ _, fun _ => wholeFile_delivers _ _ _⟩) ?_ hload
  · have hbytes := hbuilt.segments 0 (by decide)
    have hbytes' := hbuilt.segments 2 (by decide)
    rw [hfirst] at hbytes
    rw [hlast] at hbytes'
    exact ⟨0, _, uses, hload, hbytes rfl 0 (by decide), hbytes rfl 4 (by decide), hbytes' rfl 0 (by decide)⟩
  · intro n hn hload' kMid uses' hprogram
    obtain rfl | rfl | rfl : n = 0 ∨ n = 1 ∨ n = 2 := by omega
    · obtain ⟨-, hstate⟩ := Prod.mk.inj (Option.some.inj hprogram)
      rw [hfirst, ← (Prod.mk.inj hstate).1]
      unfold HasRoom
      rw [hone _ (.inl rfl)]
      exact ⟨hrun, h.findsTables_of_names hd (by decide) (hone _ (.inl rfl)) hf⟩
    · exact absurd hload' hnull
    · rw [htwo] at hprogram
      obtain ⟨-, hstate⟩ := Prod.mk.inj (Option.some.inj hprogram)
      rw [hlast, ← (Prod.mk.inj hstate).1]
      unfold HasRoom
      rw [hone _ (.inr rfl)]
      exact ⟨hrun, h'.findsTables_of_names hd (by decide) (hone _ (.inr rfl)) hf'⟩

end Example

end BitchKernel
