import BitchKernel.Printk.FormatScan

/-!
# Runs of the formatter

A format is a text of literal characters and directives, the last of which may be cut off by the
NUL. `vsprintf` passes the NUL for none of them, takes the arguments from the left, and prints what
the characters and directives print one by one. So a format can be cut behind any directive that has
its conversion.
-/

namespace BitchKernel

open Lib

/-! ## Characters and directives -/

/-- Behind the literal character or the directive at the start of the format. -/
def roundEnd (f : List (BitVec 8)) : List (BitVec 8) :=
  if peek f = chr '%' then (conversionAt f).tail else f.tail

def roundArgs (f : List (BitVec 8)) : ℕ := if peek f = chr '%' then directiveArgs f else 0

/-- The NUL does not cut off a directive at the start of the format. -/
def HasConversion (f : List (BitVec 8)) : Prop := peek f = chr '%' → conversionAt f ≠ []

/-- A literal character or a directive. -/
def IsPiece (p : List (BitVec 8)) : Prop := p ≠ [] ∧ roundEnd p = []

/-- A format that ends at a directive boundary. -/
inductive Whole : List (BitVec 8) → Prop
  | nil : Whole []
  | round {f : List (BitVec 8)} : f ≠ [] → HasConversion f → Whole (roundEnd f) → Whole f

/-- The characters and directives of a format, at most `n` of them. -/
def piecesOf : (n : ℕ) → List (BitVec 8) → List (List (BitVec 8))
  | 0, _ => []
  | n + 1, f =>
      if f = [] then [] else f.take (f.length - (roundEnd f).length) :: piecesOf n (roundEnd f)

def pieces (f : List (BitVec 8)) : List (List (BitVec 8)) := piecesOf f.length f

/-- The arguments of at most `n` of them. -/
def formatArgsOf : (n : ℕ) → List (BitVec 8) → ℕ
  | 0, _ => 0
  | n + 1, f => if f = [] then 0 else roundArgs f + formatArgsOf n (roundEnd f)

def formatArgs (f : List (BitVec 8)) : ℕ := formatArgsOf f.length f

/-- The text `f` and its NUL are the bytes from `src` on. -/
structure TextAt (mem : Bytes) (src : ℕ) (f : List (BitVec 8)) : Prop where
  addr : src < 2 ^ 32
  ends : EndsAt mem src f.length
  bytes : (tested src f.length).map mem = f

section Pieces

variable {f p : List (BitVec 8)}

theorem roundEnd_suffix (hf : f ≠ []) : roundEnd f <:+ f.tail := by
  obtain ⟨c, t, rfl⟩ := List.exists_cons_of_ne_nil hf
  unfold roundEnd
  split
  · have hscan : conversionAt (c :: t) = qualifierEnd (precisionEnd (widthEnd (flagsEnd t))) := rfl
    rw [hscan]
    exact (List.tail_suffix _).trans ((qualifierEnd_scanner.suffix _).trans
      ((precisionEnd_scanner.suffix _).trans
        ((widthEnd_scanner.suffix _).trans (flagsEnd_scanner.suffix t))))
  · exact List.suffix_refl t

theorem roundEnd_length_lt (hf : f ≠ []) : (roundEnd f).length < f.length := by
  have hle := (roundEnd_suffix hf).length_le
  have hpos := List.length_pos_iff.2 hf
  rw [List.length_tail] at hle
  omega

theorem roundEnd_zero (hf : f ≠ []) (hzero : 0 ∉ f) : 0 ∉ roundEnd f := fun h =>
  hzero (List.mem_of_mem_tail ((roundEnd_suffix hf).subset h))

theorem piece_cases (hf : f ≠ []) :
    ∃ p, f.take (f.length - (roundEnd f).length) = p ∧ p ++ roundEnd f = f ∧ IsPiece p ∧
      (HasConversion p ∨ roundEnd f = []) := by
  obtain ⟨p, hp⟩ := (roundEnd_suffix hf).trans (List.tail_suffix f)
  have htake : f.take (f.length - (roundEnd f).length) = p := by
    have hlength := congrArg List.length hp
    rw [List.length_append] at hlength
    have hsub : f.length - (roundEnd f).length = p.length := by omega
    have htaken : (p ++ roundEnd f).take p.length = p := List.take_left
    rwa [hp, ← hsub] at htaken
  have hne : p ≠ [] := by
    rintro rfl
    have hlt := roundEnd_length_lt hf
    rw [← List.nil_append (roundEnd f), hp] at hlt
    exact Nat.lt_irrefl _ hlt
  have hpeek : peek p = peek f := by
    rw [← hp]
    exact (peek_append hne _).symm
  refine ⟨p, htake, hp, ?_⟩
  by_cases hpercent : peek f = chr '%'
  · have hend : roundEnd f = (conversionAt f).tail := if_pos hpercent
    have hendp : roundEnd p = (conversionAt p).tail := if_pos (hpeek.trans hpercent)
    by_cases hconv : conversionAt f = []
    · rw [hconv] at hend
      have hall : p = f := by
        rw [← hp, hend]
        exact (List.append_nil p).symm
      exact ⟨⟨hne, hall ▸ hend⟩, Or.inr hend⟩
    · obtain ⟨d, r, hdr⟩ := List.exists_cons_of_ne_nil hconv
      rw [hdr] at hend
      have hcut : conversionAt p = [d] := by
        refine conversionAt_scanner.of_append (List.cons_ne_nil d []) (g := r) ?_
        have hwhole : p ++ r = f := by
          rw [← hp, hend]
          rfl
        rw [hwhole, hdr]
        rfl
      refine ⟨⟨hne, ?_⟩, Or.inl fun _ => ?_⟩
      · rw [hendp, hcut]
        rfl
      · rw [hcut]
        exact List.cons_ne_nil d []
  · have hend : roundEnd p = p.tail := if_neg fun h => hpercent (hpeek.symm.trans h)
    have hrest : roundEnd f = f.tail := if_neg hpercent
    refine ⟨⟨hne, ?_⟩, Or.inl fun h => absurd (hpeek.symm.trans h) hpercent⟩
    have hlength := congrArg List.length hp
    have hpos := List.length_pos_iff.2 hf
    rw [List.length_append, hrest, List.length_tail] at hlength
    rw [hend]
    refine List.eq_nil_of_length_eq_zero ?_
    rw [List.length_tail]
    omega

theorem piecesOf_succ (n : ℕ) (hf : f ≠ []) :
    piecesOf (n + 1) f = f.take (f.length - (roundEnd f).length) :: piecesOf n (roundEnd f) := if_neg hf

theorem piecesOf_flatten {n : ℕ} (hn : f.length ≤ n) : (piecesOf n f).flatten = f := by
  induction n generalizing f with
  | zero => exact (List.eq_nil_of_length_eq_zero (Nat.le_zero.1 hn)).symm
  | succ n ih =>
      by_cases hf : f = []
      · subst hf
        rfl
      have hlt := roundEnd_length_lt hf
      obtain ⟨p, htake, hp, -, -⟩ := piece_cases hf
      rw [piecesOf_succ n hf, htake, List.flatten_cons, ih (by omega), hp]

theorem piecesOf_isPiece {n : ℕ} (hp : p ∈ piecesOf n f) : IsPiece p := by
  induction n generalizing f with
  | zero => exact absurd hp List.not_mem_nil
  | succ n ih =>
      by_cases hf : f = []
      · subst hf
        exact absurd hp List.not_mem_nil
      obtain ⟨q, htake, -, hq, -⟩ := piece_cases hf
      rw [piecesOf_succ n hf, htake] at hp
      rcases List.mem_cons.1 hp with rfl | hp
      · exact hq
      · exact ih hp

end Pieces

/-! ## Rounds -/

/-- The round of a run that starts `n` characters further on in the buffer. -/
def Round.shift (n : ℕ) (r : Round) : Round := { r with stores := r.stores.map fun s => (s.1, n + s.2) }

def Round.append (r r' : Round) : Round where
  out := r.out ++ r'.out
  stores := r.stores ++ (r'.shift r.out.length).stores
  args := r'.args
  fmt := r'.fmt

/-- The formats `ps` one after the other, each with the arguments that those before it left. -/
def formatEach (mem : Bytes) (fuel : ℕ) : List (List (BitVec 8)) → List (BitVec 32) → Except Stop Round
  | [], args => .ok ⟨[], [], args, []⟩
  | p :: ps, args => do
      let round ← vsprintf mem fuel p args
      let rest ← formatEach mem fuel ps round.args
      .ok (round.append rest)

section Rounds

variable {mem : Bytes} {scan fuel fuel' count : ℕ} {f f₁ f₂ : List (BitVec 8)} {args : List (BitVec 32)}

theorem peek_ne_zero (hzero : 0 ∉ f) (hf : f ≠ []) : peek f ≠ 0 := by
  obtain ⟨c, t, rfl⟩ := List.exists_cons_of_ne_nil hf
  rintro hc
  exact hzero (hc ▸ List.mem_cons_self)

/-- A round takes the arguments of its character or directive and leaves the pointer behind it. -/
theorem formatRound_takes (mem : Bytes) (scan : ℕ) (hzero : 0 ∉ f) (hf : f ≠ [])
    (args : List (BitVec 32)) :
    TakesArgs mem scan args (roundArgs f) (roundEnd f) (fun g => HasConversion f ∨ g = []) fun count g =>
      formatRound mem scan count (f ++ g) args := by
  unfold roundArgs roundEnd
  by_cases hpercent : peek f = chr '%'
  · rw [if_pos hpercent, if_pos hpercent]
    refine ((directive_takes mem scan hzero hf args).mono fun g hg => ?_).congr fun count g _ => ?_
    · exact hg.imp_left fun hconv => hconv hpercent
    · unfold formatRound
      rw [if_neg (not_not.2 ((peek_append hf g).trans hpercent))]
  · rw [if_neg hpercent, if_neg hpercent]
    refine Or.inl ⟨Nat.zero_le _, [peek f], [], fun count g _ => ?_⟩
    dsimp only
    unfold formatRound
    rw [if_pos fun h => hpercent ((peek_append hf g).symm.trans h), peek_append hf g]
    obtain ⟨c, t, rfl⟩ := List.exists_cons_of_ne_nil hf
    rfl

theorem vsprintfLoop_nil (mem : Bytes) (scan fuel count : ℕ) (args : List (BitVec 32)) :
    vsprintfLoop mem scan (fuel + 1) count [] args = .ok ⟨[], [], args, []⟩ := if_pos rfl

theorem vsprintfLoop_succ (hzero : 0 ∉ f) (hf : f ≠ []) (fuel count : ℕ) (args : List (BitVec 32)) :
    vsprintfLoop mem scan (fuel + 1) count f args = (do
      let round ← formatRound mem scan count f args
      let rest ← vsprintfLoop mem scan fuel (count + round.out.length) round.fmt round.args
      .ok ⟨round.out ++ rest.out, round.stores ++ rest.stores, rest.args, rest.fmt⟩) :=
  if_neg (peek_ne_zero hzero hf)

/-- A run that comes to a character or directive prints it and goes on behind it; or it stops
there, for whatever is behind. -/
theorem vsprintfLoop_cases (mem : Bytes) (scan : ℕ) (hzero : 0 ∉ f) (hf : f ≠ [])
    (args : List (BitVec 32)) :
    (roundArgs f ≤ args.length ∧ ∃ out ips, ∀ fuel count g, 0 ∉ g → HasConversion f ∨ g = [] →
      vsprintfLoop mem scan (fuel + 1) count (f ++ g) args = (do
        let rest ← vsprintfLoop mem scan fuel (count + out.length) (roundEnd f ++ g)
          (args.drop (roundArgs f))
        .ok ⟨out ++ rest.out, List.map (fun ip => (ip, count)) ips ++ rest.stores, rest.args,
          rest.fmt⟩)) ∨
    ∃ e, ((e = Stop.noArgument ∧ args.length < roundArgs f) ∨
        (e = Stop.fuel ∧ ∃ s ∈ args, (strlen mem scan s.toNat).1 = none)) ∧
      ∀ fuel count g, 0 ∉ g → HasConversion f ∨ g = [] →
        vsprintfLoop mem scan (fuel + 1) count (f ++ g) args = .error e := by
  have happend : ∀ g, 0 ∉ g → 0 ∉ f ++ g := fun g hg h => (List.mem_append.1 h).elim hzero hg
  rcases formatRound_takes mem scan hzero hf args with ⟨hle, out, ips, h⟩ | ⟨hlt, h⟩ | ⟨hend, h⟩
  all_goals dsimp only at h
  · refine Or.inl ⟨hle, out, ips, fun fuel count g hg hread => ?_⟩
    rw [vsprintfLoop_succ (happend g hg) (List.append_ne_nil_of_left_ne_nil hf g), h count g hread, ok_bind]
  · refine Or.inr ⟨.noArgument, Or.inl ⟨rfl, hlt⟩, fun fuel count g hg hread => ?_⟩
    rw [vsprintfLoop_succ (happend g hg) (List.append_ne_nil_of_left_ne_nil hf g), h count g hread,
      error_bind]
  · refine Or.inr ⟨.fuel, Or.inr ⟨rfl, hend⟩, fun fuel count g hg hread => ?_⟩
    rw [vsprintfLoop_succ (happend g hg) (List.append_ne_nil_of_left_ne_nil hf g), h count g hread,
      error_bind]

theorem vsprintfLoop_step (mem : Bytes) (scan : ℕ) (hzero : 0 ∉ f) (hf : f ≠ [])
    (args : List (BitVec 32)) :
    (roundArgs f ≤ args.length ∧ ∃ out ips, ∀ fuel count,
      vsprintfLoop mem scan (fuel + 1) count f args = (do
        let rest ← vsprintfLoop mem scan fuel (count + out.length) (roundEnd f)
          (args.drop (roundArgs f))
        .ok ⟨out ++ rest.out, List.map (fun ip => (ip, count)) ips ++ rest.stores, rest.args,
          rest.fmt⟩)) ∨
    ∃ e, ((e = Stop.noArgument ∧ args.length < roundArgs f) ∨
        (e = Stop.fuel ∧ ∃ s ∈ args, (strlen mem scan s.toNat).1 = none)) ∧
      ∀ fuel count, vsprintfLoop mem scan (fuel + 1) count f args = .error e := by
  rcases vsprintfLoop_cases mem scan hzero hf args with ⟨hle, out, ips, h⟩ | ⟨e, he, h⟩
  · refine Or.inl ⟨hle, out, ips, fun fuel count => ?_⟩
    have hround := h fuel count [] List.not_mem_nil (Or.inr rfl)
    rwa [List.append_nil, List.append_nil] at hround
  · refine Or.inr ⟨e, he, fun fuel count => ?_⟩
    have hround := h fuel count [] List.not_mem_nil (Or.inr rfl)
    rwa [List.append_nil] at hround

/-- Where the buffer stands matters for the stores of `%n` alone. -/
theorem vsprintfLoop_count (hzero : 0 ∉ f) (fuel count : ℕ) (args : List (BitVec 32)) :
    vsprintfLoop mem scan fuel count f args =
      (vsprintfLoop mem scan fuel 0 f args).map (Round.shift count) := by
  induction fuel generalizing count f args with
  | zero => rfl
  | succ fuel ih =>
      by_cases hf : f = []
      · rw [hf, vsprintfLoop_nil, vsprintfLoop_nil]
        rfl
      rcases vsprintfLoop_step mem scan hzero hf args with ⟨-, out, ips, h⟩ | ⟨e, -, h⟩
      · rw [h fuel count, h fuel 0, ih (roundEnd_zero hf hzero) (count + out.length),
          ih (roundEnd_zero hf hzero) (0 + out.length)]
        cases vsprintfLoop mem scan fuel 0 (roundEnd f) (args.drop (roundArgs f)) with
        | error e => rfl
        | ok rest =>
            simp [Except.map, ok_bind, Round.shift, Function.comp_def, Nat.add_assoc]
      · rw [h fuel count, h fuel 0]
        rfl

/-- More rounds than characters are never used up. -/
theorem vsprintfLoop_rounds (hzero : 0 ∉ f) (hfuel : f.length < fuel) (hfuel' : f.length < fuel')
    (count : ℕ) (args : List (BitVec 32)) :
    vsprintfLoop mem scan fuel count f args = vsprintfLoop mem scan fuel' count f args := by
  induction fuel generalizing fuel' count f args with
  | zero => exact absurd hfuel (Nat.not_lt_zero _)
  | succ fuel ih =>
      obtain ⟨fuel', rfl⟩ := Nat.exists_eq_succ_of_ne_zero (Nat.ne_of_gt (Nat.zero_lt_of_lt hfuel'))
      by_cases hf : f = []
      · rw [hf, vsprintfLoop_nil, vsprintfLoop_nil]
      have hlt := roundEnd_length_lt hf
      rcases vsprintfLoop_step mem scan hzero hf args with ⟨-, out, ips, h⟩ | ⟨e, -, h⟩
      · have hrest := ih (roundEnd_zero hf hzero) (show (roundEnd f).length < fuel by omega)
          (show (roundEnd f).length < fuel' by omega) (count + out.length) (args.drop (roundArgs f))
        rw [h fuel count, h fuel' count, hrest]
      · rw [h fuel count, h fuel' count]

theorem vsprintfLoop_fmt (hzero : 0 ∉ f) {r : Round}
    (h : vsprintfLoop mem scan fuel count f args = .ok r) : r.fmt = [] := by
  induction fuel generalizing count f args r with
  | zero => exact absurd h (by rintro ⟨⟩)
  | succ fuel ih =>
      by_cases hf : f = []
      · rw [hf, vsprintfLoop_nil, Except.ok.injEq] at h
        rw [← h]
      rcases vsprintfLoop_step mem scan hzero hf args with ⟨-, out, ips, hround⟩ | ⟨e, -, hround⟩
      · rw [hround fuel count] at h
        cases hrest : vsprintfLoop mem scan fuel (count + out.length) (roundEnd f)
          (args.drop (roundArgs f)) with
        | error e =>
            rw [hrest, error_bind] at h
            exact absurd h (by rintro ⟨⟩)
        | ok rest =>
            have hnul := ih (roundEnd_zero hf hzero) hrest
            rw [hrest, ok_bind, Except.ok.injEq] at h
            rw [← h]
            exact hnul
      · rw [hround fuel count] at h
        exact absurd h (by rintro ⟨⟩)

/-- The NUL is never passed. -/
theorem vsprintfLoop_ne_pastEnd (hzero : 0 ∉ f) :
    vsprintfLoop mem scan fuel count f args ≠ .error .pastEnd := by
  induction fuel generalizing count f args with
  | zero => rintro ⟨⟩
  | succ fuel ih =>
      by_cases hf : f = []
      · rw [hf, vsprintfLoop_nil]
        rintro ⟨⟩
      rcases vsprintfLoop_step mem scan hzero hf args with ⟨-, out, ips, h⟩ | ⟨e, he, h⟩
      · rw [h fuel count]
        intro hpast
        cases hrest : vsprintfLoop mem scan fuel (count + out.length) (roundEnd f)
          (args.drop (roundArgs f)) with
        | error e =>
            rw [hrest, error_bind] at hpast
            exact ih (roundEnd_zero hf hzero) (hrest.trans hpast)
        | ok rest =>
            rw [hrest, ok_bind] at hpast
            exact absurd hpast (by rintro ⟨⟩)
      · rw [h fuel count]
        rcases he with ⟨rfl, -⟩ | ⟨rfl, -⟩
        · rintro ⟨⟩
        · rintro ⟨⟩

theorem strlen_ne_none (hnul : ∃ a < 2 ^ 32, mem a = 0) (hscan : 2 ^ 32 ≤ scan) (s : BitVec 32) :
    (strlen mem scan s.toNat).1 ≠ none := by
  obtain ⟨a, ha, hzero⟩ := hnul
  have hs := s.isLt
  have hreach : ∃ i < 2 ^ 32, mem (add32 s.toNat i) = 0 := by
    refine ⟨(a + (2 ^ 32 - s.toNat)) % 2 ^ 32, Nat.mod_lt _ (Nat.two_pow_pos 32), ?_⟩
    have haddr : add32 s.toNat ((a + (2 ^ 32 - s.toNat)) % 2 ^ 32) = a := by
      rw [add32_eq]
      omega
    rw [haddr]
    exact hzero
  obtain ⟨n, hn, hend⟩ := exists_endsAt hreach
  rw [hend.strlen_eq hs hn, if_pos (Nat.lt_of_lt_of_le hn hscan)]
  exact Option.some_ne_none n

theorem formatArgsOf_succ (n : ℕ) (hf : f ≠ []) :
    formatArgsOf (n + 1) f = roundArgs f + formatArgsOf n (roundEnd f) := if_neg hf

theorem vsprintfLoop_ends (hnul : ∃ a < 2 ^ 32, mem a = 0) (hscan : 2 ^ 32 ≤ scan) (hzero : 0 ∉ f)
    {n : ℕ} (hn : f.length ≤ n) (hargs : formatArgsOf n f ≤ args.length) (hfuel : f.length < fuel)
    (count : ℕ) :
    ∃ out stores, vsprintfLoop mem scan fuel count f args =
      .ok ⟨out, stores, args.drop (formatArgsOf n f), []⟩ := by
  induction n generalizing f args fuel count with
  | zero =>
      obtain rfl := List.eq_nil_of_length_eq_zero (Nat.le_zero.1 hn)
      obtain ⟨fuel, rfl⟩ := Nat.exists_eq_succ_of_ne_zero (Nat.ne_of_gt (Nat.zero_lt_of_lt hfuel))
      exact ⟨[], [], vsprintfLoop_nil mem scan fuel count args⟩
  | succ n ih =>
      obtain ⟨fuel, rfl⟩ := Nat.exists_eq_succ_of_ne_zero (Nat.ne_of_gt (Nat.zero_lt_of_lt hfuel))
      by_cases hf : f = []
      · subst hf
        exact ⟨[], [], vsprintfLoop_nil mem scan fuel count args⟩
      have hlt := roundEnd_length_lt hf
      rw [formatArgsOf_succ n hf] at hargs ⊢
      rcases vsprintfLoop_step mem scan hzero hf args with ⟨hle, out, ips, h⟩ | ⟨e, he, h⟩
      · have hargs' : formatArgsOf n (roundEnd f) ≤ (args.drop (roundArgs f)).length := by
          rw [List.length_drop]
          omega
        obtain ⟨out', stores', hrest⟩ := ih (roundEnd_zero hf hzero) (by omega) hargs'
          (show (roundEnd f).length < fuel by omega) (count + out.length)
        refine ⟨out ++ out', List.map (fun ip => (ip, count)) ips ++ stores', ?_⟩
        rw [h fuel count, hrest, ok_bind, List.drop_drop]
      · rcases he with ⟨-, hless⟩ | ⟨-, s, -, hnone⟩
        · omega
        · exact absurd hnone (strlen_ne_none hnul hscan s)

theorem vsprintfLoop_append (hwhole : Whole f₁) (hzero₁ : 0 ∉ f₁) (hzero₂ : 0 ∉ f₂)
    (hfuel : f₁.length + f₂.length < fuel) (count : ℕ) (args : List (BitVec 32)) :
    vsprintfLoop mem scan fuel count (f₁ ++ f₂) args = (do
      let r ← vsprintfLoop mem scan fuel count f₁ args
      let r' ← vsprintfLoop mem scan fuel (count + r.out.length) f₂ r.args
      .ok ⟨r.out ++ r'.out, r.stores ++ r'.stores, r'.args, r'.fmt⟩) := by
  induction hwhole generalizing fuel count args with
  | nil =>
      obtain ⟨fuel, rfl⟩ := Nat.exists_eq_succ_of_ne_zero (Nat.ne_of_gt (Nat.zero_lt_of_lt hfuel))
      rw [vsprintfLoop_nil, ok_bind, List.nil_append]
      cases vsprintfLoop mem scan (fuel + 1) count f₂ args with
      | error e => rfl
      | ok r' => rfl
  | @round f hf hconv _ ih =>
      obtain ⟨fuel, rfl⟩ := Nat.exists_eq_succ_of_ne_zero (Nat.ne_of_gt (Nat.zero_lt_of_lt hfuel))
      have hlt := roundEnd_length_lt hf
      rcases vsprintfLoop_cases mem scan hzero₁ hf args with ⟨-, out, ips, h⟩ | ⟨e, -, h⟩
      · have hround := h fuel count [] List.not_mem_nil (Or.inr rfl)
        rw [List.append_nil, List.append_nil] at hround
        rw [h fuel count f₂ hzero₂ (Or.inl hconv), hround,
          ih (roundEnd_zero hf hzero₁) (by omega) (count + out.length)]
        cases vsprintfLoop mem scan fuel (count + out.length) (roundEnd f) (args.drop (roundArgs f)) with
        | error e => rfl
        | ok r =>
            have hrounds : vsprintfLoop mem scan fuel (count + (out ++ r.out).length) f₂ r.args =
                vsprintfLoop mem scan (fuel + 1) (count + (out ++ r.out).length) f₂ r.args :=
              vsprintfLoop_rounds hzero₂ (by omega) (by omega) _ _
            rw [ok_bind, ok_bind, ok_bind, ← hrounds, List.length_append, Nat.add_assoc]
            cases vsprintfLoop mem scan fuel (count + (out.length + r.out.length)) f₂ r.args with
            | error e => rfl
            | ok r' =>
                simp only [ok_bind, List.append_assoc]
      · have hround := h fuel count [] List.not_mem_nil (Or.inr rfl)
        rw [List.append_nil] at hround
        rw [h fuel count f₂ hzero₂ (Or.inl hconv), hround, error_bind]

end Rounds

/-! ## Formats -/

section Formats

variable {mem : Bytes} {fuel src : ℕ} {f f₁ f₂ : List (BitVec 8)}

/-- The format `f₁`, which ends at a directive boundary, and then `f₂` with the arguments that it
leaves. -/
theorem vsprintf_append (hwhole : Whole f₁) (hzero₁ : 0 ∉ f₁) (hzero₂ : 0 ∉ f₂)
    (hfuel : f₁.length + f₂.length < fuel) (args : List (BitVec 32)) :
    vsprintf mem fuel (f₁ ++ f₂) args = (do
      let r ← vsprintf mem fuel f₁ args
      let r' ← vsprintf mem fuel f₂ r.args
      .ok (r.append r')) := by
  unfold vsprintf
  rw [vsprintfLoop_append hwhole hzero₁ hzero₂ hfuel]
  cases vsprintfLoop mem fuel fuel 0 f₁ args with
  | error e => rfl
  | ok r =>
      rw [ok_bind, ok_bind, Nat.zero_add, vsprintfLoop_count hzero₂ fuel r.out.length r.args]
      cases vsprintfLoop mem fuel fuel 0 f₂ r.args with
      | error e => rfl
      | ok r' => rfl

theorem vsprintf_piece (hzero : 0 ∉ f) (hf : f ≠ []) (hfuel : f.length < fuel) (args : List (BitVec 32)) :
    vsprintf mem fuel f args = (do
      let r ← vsprintf mem fuel (f.take (f.length - (roundEnd f).length)) args
      let r' ← vsprintf mem fuel (roundEnd f) r.args
      .ok (r.append r')) := by
  obtain ⟨p, htake, hp, hpiece, hcut⟩ := piece_cases hf
  rw [htake]
  have hlength := congrArg List.length hp
  rw [List.length_append] at hlength
  have hzerop : 0 ∉ p := fun h => hzero (hp ▸ List.mem_append_left _ h)
  rcases hcut with hconv | hend
  · have hwhole : Whole p := Whole.round hpiece.1 hconv (hpiece.2 ▸ Whole.nil)
    rw [← vsprintf_append hwhole hzerop (roundEnd_zero hf hzero) (hlength ▸ hfuel) args, hp]
  · rw [hend, List.append_nil] at hp
    subst hp
    obtain ⟨fuel, rfl⟩ := Nat.exists_eq_succ_of_ne_zero (Nat.ne_of_gt (Nat.zero_lt_of_lt hfuel))
    rw [hend]
    cases hrun : vsprintf mem (fuel + 1) p args with
    | error e => rfl
    | ok r =>
        have hnul := vsprintfLoop_fmt hzero hrun
        rw [ok_bind]
        unfold vsprintf
        rw [vsprintfLoop_nil, ok_bind]
        obtain ⟨out, stores, args', fmt⟩ := r
        obtain rfl : fmt = [] := hnul
        simp [Round.append, Round.shift]

theorem vsprintf_piecesOf (hzero : 0 ∉ f) {n : ℕ} (hn : f.length ≤ n) (hfuel : f.length < fuel)
    (args : List (BitVec 32)) : vsprintf mem fuel f args = formatEach mem fuel (piecesOf n f) args := by
  induction n generalizing f args with
  | zero =>
      obtain rfl := List.eq_nil_of_length_eq_zero (Nat.le_zero.1 hn)
      obtain ⟨fuel, rfl⟩ := Nat.exists_eq_succ_of_ne_zero (Nat.ne_of_gt (Nat.zero_lt_of_lt hfuel))
      rfl
  | succ n ih =>
      by_cases hf : f = []
      · subst hf
        obtain ⟨fuel, rfl⟩ := Nat.exists_eq_succ_of_ne_zero (Nat.ne_of_gt (Nat.zero_lt_of_lt hfuel))
        rfl
      have hlt := roundEnd_length_lt hf
      rw [piecesOf_succ n hf, vsprintf_piece hzero hf hfuel args, formatEach]
      have hrest := fun args => ih (roundEnd_zero hf hzero) (by omega) (Nat.lt_trans hlt hfuel) args
      simp only [hrest]

theorem TextAt.zero (h : TextAt mem src f) : 0 ∉ f := by
  intro hmem
  rw [← h.bytes] at hmem
  obtain ⟨a, ha, hzero⟩ := List.mem_map.1 hmem
  obtain ⟨i, hi, rfl⟩ := mem_tested.1 ha
  exact h.ends.2 i hi hzero

/-- `vsprintf` on a format that ends in a NUL, for any arguments. It never passes the NUL. With as
many arguments as the format takes it comes to its end, and has taken them from the left. What it
prints and takes is what its characters and directives print and take in turn. And a format that is
cut at a directive boundary is printed as its two parts, with the arguments that the first leaves;
the counts that a `%n` of the second stores are those of the whole. -/
theorem vsprintf_scans (h : TextAt mem src f) :
    (∀ fuel args, vsprintf mem fuel f args ≠ .error .pastEnd) ∧
    (∀ fuel args, 2 ^ 32 ≤ fuel → formatArgs f ≤ args.length → ∃ out stores,
      vsprintf mem fuel f args = .ok ⟨out, stores, args.drop (formatArgs f), []⟩) ∧
    ((pieces f).flatten = f ∧ (∀ p ∈ pieces f, IsPiece p) ∧
      ∀ fuel args, f.length < fuel → vsprintf mem fuel f args = formatEach mem fuel (pieces f) args) ∧
    ∀ f₁ f₂, f = f₁ ++ f₂ → Whole f₁ → ∀ fuel args, f.length < fuel →
      vsprintf mem fuel f args = (do
        let r ← vsprintf mem fuel f₁ args
        let r' ← vsprintf mem fuel f₂ r.args
        .ok (r.append r')) := by
  have hzero := h.zero
  have hnul : ∃ a < 2 ^ 32, mem a = 0 := ⟨add32 src f.length, add32_lt _ _, h.ends.1⟩
  refine ⟨fun fuel args => vsprintfLoop_ne_pastEnd hzero, fun fuel args hfuel hargs => ?_,
    ⟨piecesOf_flatten (Nat.le_refl _), fun p hp => piecesOf_isPiece hp,
      fun fuel args hfuel => vsprintf_piecesOf hzero (Nat.le_refl _) hfuel args⟩, ?_⟩
  · exact vsprintfLoop_ends hnul hfuel hzero (Nat.le_refl _) hargs
      (Nat.lt_of_lt_of_le h.ends.lt hfuel) 0
  · rintro f₁ f₂ rfl hwhole fuel args hfuel
    rw [List.length_append] at hfuel
    exact vsprintf_append hwhole (fun hmem => hzero (List.mem_append_left _ hmem))
      (fun hmem => hzero (List.mem_append_right _ hmem)) hfuel args

/-- `"%-5d%"`, whose last directive is cut off, at the address 0. -/
theorem vsprintf_scans_cut_off :
    (∀ args, vsprintf (fun a => ("%-5d%".toList.map chr).getD a 0) 9 ("%-5d%".toList.map chr) args ≠
      .error .pastEnd) ∧
    ∀ args, vsprintf (fun a => ("%-5d%".toList.map chr).getD a 0) 9 ("%-5d%".toList.map chr) args = (do
      let r ← vsprintf (fun a => ("%-5d%".toList.map chr).getD a 0) 9 ("%-5d".toList.map chr) args
      let r' ← vsprintf (fun a => ("%-5d%".toList.map chr).getD a 0) 9 ("%".toList.map chr) r.args
      .ok (r.append r')) := by
  have htext : TextAt (fun a => ("%-5d%".toList.map chr).getD a 0) 0 ("%-5d%".toList.map chr) :=
    ⟨by decide, ⟨by with_unfolding_all decide, by with_unfolding_all decide⟩,
      by with_unfolding_all decide⟩
  have hwhole : Whole ("%-5d".toList.map chr) :=
    Whole.round (by decide) (by unfold HasConversion; decide) Whole.nil
  obtain ⟨hend, -, -, happend⟩ := vsprintf_scans htext
  exact ⟨hend 9, fun args => happend _ _ rfl hwhole 9 args (by decide)⟩

end Formats

end BitchKernel
