import Mathlib.Data.List.Perm.Basic
import DoubleEntry.Proofs.Decimal.Value

/-!
# The places of an exact sum

An exact sum has the same value in any order of its terms, but not always as many places. A running
total has as many as it has room for, up to those of the terms so far. Once they cancel, the next
term is taken as it is; and what the total has lost when it grew too large does not come back when
it shrinks again.

* `scale_add_le`, `le_scale_add`: how many places the sum of two numbers has.
* `OrderMatters`: some terms cancel, or outgrow their places, and leave terms with fewer places.
* `sum_perm_iff`: exactly then the sum has other places in another order.
* `exists_sum_filter`: terms that are zero do not count.
-/

namespace DoubleEntry

namespace Decimal

variable {a b c t : Decimal} {s : Nat} {l l' : List Decimal}

/-- A number of this size may have so many places. -/
def HasRoom (x : ℚ) (s : Nat) : Prop := |x| * 10 ^ s < limit

theorem abs_value (a : Decimal) : |a.value| = a.coefficient / 10 ^ a.scale := by
  rw [value, abs_div, abs_of_pos (show (0 : ℚ) < 10 ^ a.scale by positivity), signed]
  split <;> simp

theorem hasRoom_value (a : Decimal) : HasRoom a.value a.scale := by
  rw [HasRoom, abs_value, div_mul_cancel₀ _ (ten_pow_ne_zero _)]
  exact_mod_cast a.coefficient_lt

theorem HasRoom.mono {x : ℚ} {s' : Nat} (h : HasRoom x s') (hs : s ≤ s') : HasRoom x s := by
  have hpow : (10 : ℚ) ^ s ≤ 10 ^ s' := pow_le_pow_right₀ (by norm_num) hs
  exact lt_of_le_of_lt (mul_le_mul_of_nonneg_left hpow (abs_nonneg x)) h

/-! ## The sum of two numbers -/

theorem excess_le_iff (m k : Nat) : excess m ≤ k ↔ m / 10 ^ k < limit := by
  fun_induction excess m generalizing k with
  | case1 m hm =>
    have hdiv := Nat.div_le_self m (10 ^ k)
    omega
  | case2 m hm ih =>
    cases k with
    | zero => simp [hm]
    | succ k =>
      rw [Nat.add_le_add_iff_right, ih, Nat.div_div_eq_div_mul, pow_succ']

theorem divHalfEven_mul (k : Nat) {d : Nat} (hd : 0 < d) : divHalfEven (k * d) d = k := by
  rw [divHalfEven, Nat.mul_mod_left, Nat.mul_div_cancel k hd]
  simp only [Nat.mul_zero]
  rw [if_neg]
  omega

theorem ofParts?_eq_some {negative : Bool} {m : Nat} (h : ofParts? negative m s = some c) :
    c.negative = negative ∧ c.coefficient = m ∧ c.scale = s := by
  unfold ofParts? at h
  split at h
  · obtain rfl := Option.some.inj h
    exact ⟨rfl, rfl, rfl⟩
  · cases h

/-- A result that is exact gives up only the places for which there is no room. -/
theorem fit?_eq_some {negative : Bool} {m : Nat} (hs : s ≤ maxScale)
    (h : fit? negative m s = some c) (hc : c.coefficient * 10 ^ s = m * 10 ^ c.scale) :
    c.negative = negative ∧ c.scale = s - excess m := by
  have hd : max (s - maxScale) (excess m) = excess m := by omega
  have hfits := (excess_le_iff m (excess m)).1 le_rfl
  simp only [fit?, hd] at h
  generalize excess m = d at h hfits ⊢
  split at h
  · cases h
  · rename_i hle
    split at h
    · obtain ⟨hsign, -, hscale⟩ := ofParts?_eq_some h
      exact ⟨hsign, hscale⟩
    · rename_i hlarge
      split at h
      · cases h
      · rename_i hne
        exfalso
        obtain ⟨-, -, hscale⟩ := ofParts?_eq_some h
        -- The number is a multiple of what is dropped, so dropping it carries nothing over.
        have hm : m = c.coefficient * 10 * 10 ^ d := by
          have hpow : 10 ^ s = 10 * 10 ^ d * 10 ^ (s - d - 1) := by
            rw [← pow_succ', ← pow_add]
            congr 1
            omega
          refine Nat.eq_of_mul_eq_mul_right (show 0 < 10 ^ (s - d - 1) by positivity) ?_
          rw [← hscale, ← hc, hpow, hscale]
          ring
        have hpos : 0 < 10 ^ d := by positivity
        rw [hm, Nat.mul_div_cancel _ hpos] at hfits
        refine hlarge ?_
        show divHalfEven m (10 ^ d) < limit
        rwa [hm, divHalfEven_mul _ hpos]

/-- How an exact sum of two numbers other than zero is made. -/
theorem add_eq_fit (ha : ¬a.isZero) (hb : ¬b.isZero) (h : a.add b = .exact c) :
    c.negative = decide (exactSum a b < 0) ∧
      c.scale = max a.scale b.scale - excess (exactSum a b).natAbs := by
  have hvalue := value_add h
  unfold add at h
  rw [if_neg ha, if_neg hb] at h
  have hfit : addNonzero? a b = some c := by
    cases hsum : addNonzero? a b with
    | none => simp [hsum, outcome] at h
    | some d =>
      simp only [hsum, outcome] at h
      split at h
      · rw [Checked.exact.inj h]
      · cases h
  refine fit?_eq_some (max_le a.scale_le b.scale_le) hfit ?_
  have habs : |c.value| = (exactSum a b).natAbs / 10 ^ max a.scale b.scale := by
    rw [hvalue, ← exactSum_div, abs_div, abs_of_pos (show (0 : ℚ) < 10 ^ _ by positivity),
      Nat.cast_natAbs, Int.cast_abs]
  rw [abs_value, div_eq_div_iff (ten_pow_ne_zero _) (ten_pow_ne_zero _)] at habs
  exact_mod_cast habs

/-- A sum has no more places than its terms. -/
theorem scale_add_le (ha : ¬a.isZero) (hb : ¬b.isZero) (h : a.add b = .exact c) :
    c.scale ≤ max a.scale b.scale := by
  rw [(add_eq_fit ha hb h).2]
  exact Nat.sub_le _ _

/-- A sum keeps the places for which it has room. -/
theorem le_scale_add (ha : ¬a.isZero) (hb : ¬b.isZero) (h : a.add b = .exact c)
    (hs : s ≤ max a.scale b.scale) (hroom : HasRoom c.value s) : s ≤ c.scale := by
  rw [(add_eq_fit ha hb h).2]
  have hdrop : excess (exactSum a b).natAbs ≤ max a.scale b.scale - s := by
    rw [excess_le_iff, Nat.div_lt_iff_lt_mul (by positivity)]
    have hpow : (10 : ℚ) ^ max a.scale b.scale = 10 ^ (max a.scale b.scale - s) * 10 ^ s := by
      rw [← pow_add, Nat.sub_add_cancel hs]
    rw [HasRoom, value_add h, ← exactSum_div, abs_div,
      abs_of_pos (show (0 : ℚ) < 10 ^ max a.scale b.scale by positivity), hpow, ← div_div,
      div_mul_cancel₀ _ (ten_pow_ne_zero _), div_lt_iff₀ (by positivity)] at hroom
    rw [← Int.cast_abs, ← Nat.cast_natAbs] at hroom
    exact_mod_cast hroom
  omega

/-! ## Running totals -/

/-- A zero is written in one way only. -/
def Tidy (a : Decimal) : Prop := a.isZero → a = zero

theorem scale_add_lt (hb : b.scale < s) (ha : a.isZero ∨ a.scale < s) (h : a.add b = .exact c) :
    c.scale < s := by
  by_cases haz : a.isZero
  · obtain rfl : b = c := by simpa [add, haz] using h
    exact hb
  · by_cases hbz : b.isZero
    · obtain rfl : a = c := by simpa [add, haz, hbz] using h
      exact ha.resolve_left haz
    · exact lt_of_le_of_lt (scale_add_le haz hbz h) (max_lt (ha.resolve_left haz) hb)

theorem scale_foldlM_lt (hl : ∀ d ∈ l, d.scale < s) (ha : a.scale < s)
    (h : l.foldlM add a = .exact c) : c.scale < s := by
  induction l generalizing a with
  | nil =>
    obtain rfl : a = c := by simpa using h
    exact ha
  | cons d l ih =>
    rw [List.foldlM_cons, Checked.bind_eq_exact] at h
    obtain ⟨t, ht, h⟩ := h
    exact ih (fun e he => hl e (List.mem_cons_of_mem _ he))
      (scale_add_lt (hl d List.mem_cons_self) (.inr ha) ht) h

/-- Once a running total is zero or has fewer places, further terms with fewer places leave it
so. -/
theorem scale_lt_of_lost (hl : ∀ d ∈ l, d.scale < s) (hne : l ≠ [])
    (ha : a.value = 0 ∨ ¬HasRoom a.value s) (h : l.foldlM add a = .exact c) : c.scale < s := by
  cases l with
  | nil => exact absurd rfl hne
  | cons d l =>
    rw [List.foldlM_cons, Checked.bind_eq_exact] at h
    obtain ⟨t, ht, h⟩ := h
    refine scale_foldlM_lt (fun e he => hl e (List.mem_cons_of_mem _ he)) ?_ h
    refine scale_add_lt (hl d List.mem_cons_self) ?_ ht
    refine ha.imp isZero_iff.2 fun hroom => ?_
    by_contra hle
    exact hroom (a.hasRoom_value.mono (not_lt.1 hle))

/-- A term with so many places gives them to a total that has room for them. -/
theorem le_scale_of_term (hb : ¬b.isZero) (hs : s ≤ b.scale) (h : a.add b = .exact c)
    (hroom : HasRoom c.value s) : s ≤ c.scale := by
  by_cases haz : a.isZero
  · obtain rfl : b = c := by simpa [add, haz] using h
    exact hs
  · exact le_scale_add haz hb h (le_max_of_le_right hs) hroom

/-- A running total loses places only where it is zero or has no room for them. -/
theorem exists_lost (hl : ∀ d ∈ l, d.scale < s) (ha : s ≤ a.scale) (h : l.foldlM add a = .exact c)
    (hc : c.scale < s) (hroom : HasRoom c.value s) :
    ∃ p q t, l = p ++ q ∧ q ≠ [] ∧ p.foldlM add a = .exact t ∧
      (t.value = 0 ∨ ¬HasRoom t.value s) := by
  induction l generalizing a with
  | nil =>
    obtain rfl : a = c := by simpa using h
    omega
  | cons d l ih =>
    by_cases haz : a.isZero
    · exact ⟨[], d :: l, a, rfl, by simp, rfl, .inl (isZero_iff.1 haz)⟩
    · rw [List.foldlM_cons, Checked.bind_eq_exact] at h
      obtain ⟨t, ht, h⟩ := h
      have hsmaller := fun e he => hl e (List.mem_cons_of_mem d he)
      have hkeeps : HasRoom t.value s → s ≤ t.scale := by
        intro htroom
        by_cases hdz : d.isZero
        · obtain rfl : a = t := by simpa [add, haz, hdz] using ht
          exact ha
        · exact le_scale_add haz hdz ht (le_max_of_le_left ha) htroom
      by_cases htroom : HasRoom t.value s
      · obtain ⟨p, q, t', rfl, hq, hp, hlost⟩ := ih hsmaller (hkeeps htroom) h
        exact ⟨d :: p, q, t', rfl, hq, by rw [List.foldlM_cons, ht]; exact hp, hlost⟩
      · refine ⟨[d], l, t, rfl, ?_, by rw [List.foldlM_cons, ht]; rfl, .inr htroom⟩
        rintro rfl
        obtain rfl : t = c := by simpa using h
        exact htroom hroom

/-! ## Orders -/

/-- In one order of the numbers their sum has fewer places than in another: those that come first
cancel or have no room for `places`, though one of them has so many, and the rest have fewer. Yet
the whole sum has room for them. -/
def OrderMatters (l : List Decimal) : Prop :=
  ∃ (places : Nat) (first last : List Decimal), l.Perm (first ++ last) ∧ last ≠ [] ∧
    (∃ d ∈ first, places ≤ d.scale) ∧ (∀ d ∈ last, d.scale < places) ∧
    HasRoom (l.map value).sum places ∧
    ((first.map value).sum = 0 ∨ ¬HasRoom (first.map value).sum places)

theorem exists_last {p : Decimal → Prop} (h : ∃ d ∈ l, p d) :
    ∃ before d after, l = before ++ d :: after ∧ p d ∧ ∀ e ∈ after, ¬p e := by
  induction l with
  | nil => simp at h
  | cons d l ih =>
    by_cases hl : ∃ e ∈ l, p e
    · obtain ⟨before, e, after, rfl, he, hafter⟩ := ih hl
      exact ⟨d :: before, e, after, rfl, he, hafter⟩
    · have hnone : ∀ e ∈ l, ¬p e := fun e he hp => hl ⟨e, he, hp⟩
      obtain ⟨e, he, hp⟩ := h
      rcases List.mem_cons.1 he with rfl | he
      · exact ⟨[], e, l, rfl, hp, hnone⟩
      · exact absurd hp (hnone e he)

/-- Of two orders, the one with fewer places has lost them on the way. -/
theorem orderMatters_of_scale_lt {l₁ l₂ : List Decimal} {c₁ c₂ : Decimal}
    (htidy : ∀ d ∈ l, d.Tidy) (h₁ : l₁.Perm l) (h₂ : l₂.Perm l) (hc₁ : sum l₁ = .exact c₁)
    (hc₂ : sum l₂ = .exact c₂) (hlt : c₁.scale < c₂.scale) : OrderMatters l := by
  have hsum₁ : c₁.value = (l.map value).sum := (value_sum hc₁).trans (h₁.map _).sum_eq
  have hsum₂ : c₂.value = (l.map value).sum := (value_sum hc₂).trans (h₂.map _).sum_eq
  have hroom : HasRoom c₁.value c₂.scale := by
    rw [hsum₁, ← hsum₂]
    exact c₂.hasRoom_value
  have hexists : ∃ d ∈ l₁, c₂.scale ≤ d.scale := by
    by_contra hnone
    refine lt_irrefl c₂.scale (scale_foldlM_lt (l := l₂) ?_ (Nat.zero_lt_of_lt hlt) hc₂)
    intro d hd
    by_contra hle
    exact hnone ⟨d, h₁.mem_iff.2 (h₂.mem_iff.1 hd), not_lt.1 hle⟩
  obtain ⟨before, g, after, rfl, hg, hafter⟩ := exists_last hexists
  have hsmaller : ∀ d ∈ after, d.scale < c₂.scale := fun d hd => not_le.1 (hafter d hd)
  have hgz : ¬g.isZero := by
    intro hzero
    have hscale : g.scale = 0 := congrArg scale (htidy g (h₁.mem_iff.1 (by simp)) hzero)
    omega
  rw [sum, List.foldlM_append, Checked.bind_eq_exact] at hc₁
  obtain ⟨t₀, hbefore, hc₁⟩ := hc₁
  rw [List.foldlM_cons, Checked.bind_eq_exact] at hc₁
  obtain ⟨t₁, ht₁, hc₁⟩ := hc₁
  -- The places are lost right after the last term that has them, or on the way from there.
  obtain ⟨p, q, t, rfl, hq, hp, hlost⟩ : ∃ p q t, after = p ++ q ∧ q ≠ [] ∧
      p.foldlM add t₁ = .exact t ∧ (t.value = 0 ∨ ¬HasRoom t.value c₂.scale) := by
    by_cases hroom₁ : HasRoom t₁.value c₂.scale
    · exact exists_lost hsmaller (le_scale_of_term hgz hg ht₁ hroom₁) hc₁ hlt hroom
    · refine ⟨[], after, t₁, rfl, ?_, rfl, .inr hroom₁⟩
      rintro rfl
      obtain rfl : t₁ = c₁ := by simpa using hc₁
      exact hroom₁ hroom
  have hfirst : sum (before ++ g :: p) = .exact t := by
    rw [sum, List.foldlM_append, hbefore, Checked.exact_bind, List.foldlM_cons, ht₁,
      Checked.exact_bind, hp]
  refine ⟨c₂.scale, before ++ g :: p, q, ?_, hq, ⟨g, by simp, hg⟩, ?_, hsum₁ ▸ hroom, ?_⟩
  · simpa using h₁.symm
  · exact fun d hd => hsmaller d (List.mem_append_right p hd)
  · rwa [← value_sum hfirst]

/-- An exact sum that is zero has no sign. -/
theorem negative_of_sum (htidy : ∀ d ∈ l, d.Tidy) (h : sum l = .exact c) (hc : c.isZero) :
    c.negative = false := by
  suffices ∀ a : Decimal, (a.isZero → a.negative = false) → l.foldlM add a = .exact c →
      c.negative = false from this zero (fun _ => rfl) h
  clear h
  induction l with
  | nil =>
    intro a ha h
    obtain rfl : a = c := by simpa using h
    exact ha hc
  | cons d l ih =>
    intro a ha h
    rw [List.foldlM_cons, Checked.bind_eq_exact] at h
    obtain ⟨t, ht, h⟩ := h
    refine ih (fun e he => htidy e (List.mem_cons_of_mem _ he)) t (fun hz => ?_) h
    by_cases haz : a.isZero
    · obtain rfl : d = t := by simpa [add, haz] using ht
      rw [htidy d List.mem_cons_self hz]
      rfl
    · by_cases hdz : d.isZero
      · obtain rfl : a = t := by simpa [add, haz, hdz] using ht
        exact ha hz
      · have hvalue : a.value + d.value = 0 := by rw [← value_add ht, isZero_iff.1 hz]
        rw [← exactSum_div, div_eq_zero_iff, or_iff_left (ten_pow_ne_zero _),
          Int.cast_eq_zero] at hvalue
        rw [(add_eq_fit haz hdz ht).1, hvalue]
        rfl

/-- Two decimals of one value and scale differ at most in the sign of zero. -/
theorem eq_of_value_of_scale (hvalue : a.value = b.value) (hscale : a.scale = b.scale)
    (ha : a.isZero → a.negative = false) (hb : b.isZero → b.negative = false) : a = b := by
  have hsigned : a.signed = b.signed := by
    rw [value, value, hscale, div_left_inj' (ten_pow_ne_zero _)] at hvalue
    exact_mod_cast hvalue
  unfold isZero at ha hb
  unfold signed at hsigned
  have hboth : a.negative = b.negative ∧ a.coefficient = b.coefficient := by
    cases han : a.negative <;> cases hbn : b.negative <;> simp_all
  exact Decimal.ext hboth.1 hboth.2 hscale

theorem sum_eq_of_scale {l₁ l₂ : List Decimal} {c₁ c₂ : Decimal} (htidy : ∀ d ∈ l, d.Tidy)
    (h₁ : l₁.Perm l) (h₂ : l₂.Perm l) (hc₁ : sum l₁ = .exact c₁) (hc₂ : sum l₂ = .exact c₂)
    (hscale : c₁.scale = c₂.scale) : c₁ = c₂ := by
  have hvalue : c₁.value = c₂.value := by
    rw [value_sum hc₁, value_sum hc₂]
    exact ((h₁.trans h₂.symm).map value).sum_eq
  exact eq_of_value_of_scale hvalue hscale
    (negative_of_sum (fun d hd => htidy d (h₁.mem_iff.1 hd)) hc₁)
    (negative_of_sum (fun d hd => htidy d (h₂.mem_iff.1 hd)) hc₂)

/-- Some order of the numbers has places that another has not. -/
theorem OrderMatters.exists_sums (htidy : ∀ d ∈ l, d.Tidy)
    (hexact : ∀ l', l'.Perm l → ∃ t, sum l' = .exact t) (h : OrderMatters l) :
    ∃ l₁ l₂ c₁ c₂, l₁.Perm l ∧ l₂.Perm l ∧ sum l₁ = .exact c₁ ∧ sum l₂ = .exact c₂ ∧
      c₁.scale < c₂.scale := by
  obtain ⟨s, first, last, hperm, hne, ⟨g, hg, hgs⟩, hlast, hroom, hlost⟩ := h
  obtain ⟨c₁, hc₁⟩ := hexact (first ++ last) hperm.symm
  obtain ⟨before, after, hsplit⟩ := List.append_of_mem hg
  have hend : (before ++ after ++ last ++ [g]).Perm l := by
    refine List.Perm.trans ?_ hperm.symm
    rw [hsplit]
    refine List.perm_append_singleton g _ |>.trans ?_
    have hmiddle : (g :: (before ++ (after ++ last))).Perm (before ++ g :: (after ++ last)) :=
      List.perm_middle.symm
    simpa using hmiddle
  obtain ⟨c₂, hc₂⟩ := hexact _ hend
  refine ⟨first ++ last, _, c₁, c₂, hperm.symm, hend, hc₁, hc₂, ?_⟩
  have hlow : c₁.scale < s := by
    rw [sum, List.foldlM_append, Checked.bind_eq_exact] at hc₁
    obtain ⟨t, ht, hc₁⟩ := hc₁
    exact scale_lt_of_lost hlast hne (value_sum ht ▸ hlost) hc₁
  have hhigh : s ≤ c₂.scale := by
    have hvalue : c₂.value = (l.map value).sum := (value_sum hc₂).trans (hend.map _).sum_eq
    rw [sum, List.foldlM_append, Checked.bind_eq_exact] at hc₂
    obtain ⟨t, -, hc₂⟩ := hc₂
    rw [List.foldlM_cons, Checked.bind_eq_exact] at hc₂
    obtain ⟨t', ht', hc₂⟩ := hc₂
    obtain rfl : t' = c₂ := by simpa using hc₂
    refine le_scale_of_term ?_ hgs ht' (hvalue ▸ hroom)
    intro hzero
    -- A zero has no places, but every number that comes last has fewer than `g`.
    have hscale : g.scale = 0 := congrArg scale (htidy g (hend.mem_iff.1 (by simp)) hzero)
    obtain ⟨d, hd⟩ := List.exists_mem_of_ne_nil last hne
    have hfewer := hlast d hd
    omega
  omega

/-- If the sum is exact in every order, then it is the same in every order exactly if the order does
not matter to its places. -/
theorem sum_perm_iff (htidy : ∀ d ∈ l, d.Tidy)
    (hexact : ∀ l', l'.Perm l → ∃ t, sum l' = .exact t) :
    (∀ l', l'.Perm l → sum l' = sum l) ↔ ¬OrderMatters l := by
  constructor
  · intro hsame hmatters
    obtain ⟨l₁, l₂, c₁, c₂, h₁, h₂, hc₁, hc₂, hlt⟩ := hmatters.exists_sums htidy hexact
    rw [hsame l₁ h₁, ← hsame l₂ h₂, hc₂] at hc₁
    rw [Checked.exact.inj hc₁] at hlt
    exact lt_irrefl _ hlt
  · intro hmatters l' hl'
    obtain ⟨c, hc⟩ := hexact l (.refl l)
    obtain ⟨c', hc'⟩ := hexact l' hl'
    have hscale : c'.scale = c.scale := by
      by_contra hne
      rcases Nat.lt_or_gt_of_ne hne with hlt | hlt
      · exact hmatters (orderMatters_of_scale_lt htidy hl' (.refl l) hc' hc hlt)
      · exact hmatters (orderMatters_of_scale_lt htidy (.refl l) hl' hc hc' hlt)
    rw [hc, hc', sum_eq_of_scale htidy hl' (.refl l) hc' hc hscale]

/-- Among numbers with the same places no order has others. -/
theorem not_orderMatters_of_scale (h : ∀ d ∈ l, d.scale = s) : ¬OrderMatters l := by
  rintro ⟨places, first, last, hperm, hne, ⟨d, hd, hplaces⟩, hlast, -⟩
  obtain ⟨e, he⟩ := List.exists_mem_of_ne_nil last hne
  have hd' := h d (hperm.mem_iff.2 (List.mem_append_left last hd))
  have he' := h e (hperm.mem_iff.2 (List.mem_append_right first he))
  have hfewer := hlast e he
  omega

/-! ## Terms that are zero -/

/-- The same number, written in any way if it is zero. -/
def Matches (a b : Decimal) : Prop := a = b ∨ a.isZero ∧ b.isZero

theorem Matches.value_eq (h : a.Matches b) : a.value = b.value := by
  rcases h with rfl | ⟨ha, hb⟩
  · rfl
  · rw [isZero_iff.1 ha, isZero_iff.1 hb]

theorem Matches.eq (h : a.Matches b) (ha : ¬a.isZero) : a = b :=
  h.resolve_right fun hz => ha hz.1

theorem Matches.add (h : a.Matches b) (d : Decimal) : a.add d = b.add d := by
  rcases h with rfl | ⟨ha, hb⟩
  · rfl
  · rw [Decimal.add, Decimal.add, if_pos ha, if_pos hb]

theorem Matches.add_zero (h : a.Matches b) {d : Decimal} (hd : d.isZero) :
    ∃ c, a.add d = .exact c ∧ c.Matches b := by
  by_cases ha : a.isZero
  · have hb : b.isZero := by
      rcases h with rfl | hz
      · exact ha
      · exact hz.2
    exact ⟨d, by rw [Decimal.add, if_pos ha], .inr ⟨hd, hb⟩⟩
  · exact ⟨a, by rw [Decimal.add, if_neg ha, if_pos hd], h⟩

theorem foldlM_filter_of_matches (h : a.Matches b) (hl : l.foldlM Decimal.add a = .exact c) :
    ∃ c', (l.filter (!·.isZero)).foldlM Decimal.add b = .exact c' ∧ c.Matches c' := by
  induction l generalizing a b with
  | nil =>
    obtain rfl : a = c := by simpa using hl
    exact ⟨b, rfl, h⟩
  | cons d l ih =>
    rw [List.foldlM_cons, Checked.bind_eq_exact] at hl
    obtain ⟨t, ht, hl⟩ := hl
    by_cases hd : d.isZero
    · obtain ⟨t', ht', hmatches⟩ := h.add_zero hd
      obtain rfl := Checked.exact.inj (ht.symm.trans ht')
      rw [List.filter_cons_of_neg (by simp [hd])]
      exact ih hmatches hl
    · rw [List.filter_cons_of_pos (by simp [hd]), List.foldlM_cons, ← h.add d, ht]
      exact ih (.inl rfl) hl

/-- Terms that are zero do not count, but for the way in which a total of zero is written. -/
theorem exists_sum_filter (h : sum l = .exact c) :
    ∃ c', sum (l.filter (!·.isZero)) = .exact c' ∧ c.Matches c' :=
  foldlM_filter_of_matches (.inl rfl) h

theorem tidy_of_mem_filter (h : a ∈ l.filter (!·.isZero)) : a.Tidy := by
  have hne : ¬a.isZero := by simpa using (List.mem_filter.1 h).2
  exact fun hz => absurd hz hne

end Decimal

end DoubleEntry
