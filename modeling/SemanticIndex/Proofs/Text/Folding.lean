import Mathlib.Data.List.Basic
import SemanticIndex.Text.Lowercase
import SemanticIndex.Text.Search

namespace SemanticIndex.Text

theorem ofNat_of_ascii {P : Char → Prop} (h : ∀ n < 128, P (Char.ofNat n)) {c : Char}
    (hc : c.toNat < 128) : P c := by
  have := h c.toNat hc
  rwa [Char.ofNat_toNat] at this

theorem toNat_ofNat (n : Nat) : (Char.ofNat n).toNat = n ∨ Char.ofNat n = '\x00' := by
  by_cases h : n.isValidChar
  · left
    rw [Char.ofNat, dif_pos h]
    rfl
  · right
    exact dif_neg h

def specials : List Char :=
  ['Σ', 'ς', 'σ', 'İ', 'i', '\u0307', '\x00']

structure Uncased (table : List (Nat × Nat)) : Prop where
  runs : ∀ r ∈ caseRuns, ∀ b ∈ table, (r.high < b.1 ∨ b.2 < r.low) ∧
    ((r.high : Int) + r.shift < b.1 ∨ (b.2 : Int) < r.low + r.shift)
  ascii : ∀ n < 128, inRanges table (Char.ofNat n).toLower = inRanges table (Char.ofNat n)
  special : specials.any (inRanges table) = false

theorem shift_nonneg : ∀ r ∈ caseRuns, 0 ≤ (r.low : Int) + r.shift := by
  decide +kernel

theorem uncased_blanks : Uncased blanks where
  runs := by decide +kernel
  ascii := by decide +kernel
  special := by decide

theorem uncased_backslash : Uncased [(0x5C, 0x5C)] where
  runs := by decide +kernel
  ascii := by decide +kernel
  special := by decide

theorem inRanges_eq_false {table : List (Nat × Nat)} {c : Char} :
    inRanges table c = false ↔ ∀ b ∈ table, c.toNat < b.1 ∨ b.2 < c.toNat := by
  simp only [inRanges, List.any_eq_false, Bool.and_eq_true, decide_eq_true_eq, not_and_or,
    Nat.not_le]

variable {table : List (Nat × Nat)} {before cs : List Char} {c : Char}

theorem Uncased.of_special (h : Uncased table) (hc : c ∈ specials) : inRanges table c = false :=
  Bool.eq_false_iff.mpr (List.any_eq_false.mp h.special c hc)

theorem Uncased.lowerSimple (h : Uncased table) (c : Char) :
    inRanges table (lowerSimple c) = inRanges table c := by
  unfold Text.lowerSimple
  split
  · next hc =>
    exact ofNat_of_ascii (P := fun c => inRanges table c.toLower = inRanges table c) h.ascii hc
  · split
    · rfl
    · next r hr =>
      have hmem := List.mem_of_find?_eq_some hr
      have hcovers := List.find?_some hr
      simp only [CaseRun.covers, Bool.and_eq_true, decide_eq_true_eq] at hcovers
      have hsource : inRanges table c = false := by
        rw [inRanges_eq_false]
        intro b hb
        have := (h.runs r hmem b hb).1
        omega
      rw [hsource]
      rcases toNat_ofNat (c.toNat + r.shift).toNat with hn | hn
      · rw [inRanges_eq_false, hn]
        intro b hb
        have := (h.runs r hmem b hb).2
        have := shift_nonneg r hmem
        omega
      · rw [hn]
        exact h.of_special (by decide)

theorem Uncased.lowerFrom_cons (h : Uncased table) (before cs : List Char) (c : Char) :
    ∃ small, small ≠ [] ∧ (∀ d ∈ small, inRanges table d = inRanges table c) ∧
      lowerFrom before (c :: cs) = small ++ lowerFrom (c :: before) cs := by
  refine ⟨_, ?_, ?_, rfl⟩
  · split
    · simp
    · split <;> simp
  · intro d hd
    split at hd
    · next hc =>
      rw [hc, h.of_special (by decide : 'Σ' ∈ specials)]
      split at hd <;> rw [List.mem_singleton.mp hd] <;> exact h.of_special (by decide)
    · split at hd
      · next hc =>
        rw [hc, h.of_special (by decide : 'İ' ∈ specials)]
        rcases List.mem_pair.mp hd with rfl | rfl <;> exact h.of_special (by decide)
      · rw [List.mem_singleton.mp hd, h.lowerSimple]

theorem lowerFrom_eq_nil : lowerFrom before cs = [] ↔ cs = [] := by
  cases cs with
  | nil => simp [lowerFrom]
  | cons c cs =>
    obtain ⟨small, hsmall, -, heq⟩ := uncased_blanks.lowerFrom_cons before cs c
    simp [heq, hsmall]

theorem Uncased.head?_lowerFrom (h : Uncased table) :
    (lowerFrom before cs).head?.map (inRanges table) = cs.head?.map (inRanges table) := by
  cases cs with
  | nil => rfl
  | cons c cs =>
    obtain ⟨small, hsmall, hd, heq⟩ := h.lowerFrom_cons before cs c
    obtain ⟨d, small, rfl⟩ := List.exists_cons_of_ne_nil hsmall
    rw [heq]
    exact congrArg some (hd d List.mem_cons_self)

theorem Uncased.getLast?_lowerFrom (h : Uncased table) :
    (lowerFrom before cs).getLast?.map (inRanges table) =
      cs.getLast?.map (inRanges table) := by
  induction cs generalizing before with
  | nil => rfl
  | cons c cs ih =>
    obtain ⟨small, hsmall, hd, heq⟩ := h.lowerFrom_cons before cs c
    cases cs with
    | nil =>
      have hlast := List.getLast?_eq_some_getLast hsmall
      rw [heq, lowerFrom, List.append_nil, hlast]
      exact congrArg some (hd _ (List.getLast_mem hsmall))
    | cons e cs =>
      have hrest : lowerFrom (c :: before) (e :: cs) ≠ [] := by simp [lowerFrom_eq_nil]
      rw [heq, List.getLast?_append_of_ne_nil _ hrest, ih, List.getLast?_cons_cons]

theorem Uncased.any_lowerFrom (h : Uncased table) :
    (lowerFrom before cs).any (inRanges table) = cs.any (inRanges table) := by
  induction cs generalizing before with
  | nil => rfl
  | cons c cs ih =>
    obtain ⟨small, hsmall, hd, heq⟩ := h.lowerFrom_cons before cs c
    have hany : small.any (inRanges table) = inRanges table c := by
      obtain ⟨d, small, rfl⟩ := List.exists_cons_of_ne_nil hsmall
      rw [Bool.eq_iff_iff, List.any_eq_true]
      constructor
      · rintro ⟨e, he, htrue⟩
        rwa [← hd e he]
      · intro htrue
        exact ⟨d, List.mem_cons_self, by rw [hd d List.mem_cons_self, htrue]⟩
    rw [heq, List.any_append, hany, ih, List.any_cons]

theorem lowerFrom_of_ascii (h : ∀ c ∈ cs, c.toNat < 128) :
    lowerFrom before cs = cs.map Char.toLower := by
  induction cs generalizing before with
  | nil => rfl
  | cons c cs ih =>
    have hc : c.toNat < 128 := h c List.mem_cons_self
    have hsigma : c ≠ 'Σ' := by
      rintro rfl
      exact absurd hc (by decide)
    have hdotted : c ≠ 'İ' := by
      rintro rfl
      exact absurd hc (by decide)
    have hrest : lowerFrom (c :: before) cs = cs.map Char.toLower :=
      ih fun d hd => h d (List.mem_cons_of_mem c hd)
    simp [lowerFrom, hsigma, hdotted, lowerSimple, hc, hrest]

theorem ascii_of_toLower (h : c.toLower.toNat < 128) : c.toNat < 128 := by
  unfold Char.toLower at h
  split at h
  · next hupper =>
    have := UInt32.le_iff_toNat_le.mp hupper.2
    have : c.toNat = c.val.toNat := rfl
    have : 'Z'.val.toNat = 90 := rfl
    omega
  · exact h

theorem mem_map_toLower_backslash : '\\' ∈ cs.map Char.toLower ↔ '\\' ∈ cs := by
  have hchar : ∀ c : Char, c.toLower = '\\' → c = '\\' := by
    intro c hc
    have hascii : c.toNat < 128 := ascii_of_toLower (by rw [hc]; decide)
    exact ofNat_of_ascii (P := fun c => c.toLower = '\\' → c = '\\') (by decide) hascii hc
  constructor
  · intro h
    obtain ⟨c, hc, hlower⟩ := List.mem_map.mp h
    rwa [← hchar c hlower]
  · intro h
    exact List.mem_map.mpr ⟨_, h, by decide⟩

theorem lowerFrom_eq_of_map_toLower {word : List Char} (hword : word.all (·.toNat < 128) = true)
    (h : cs.map Char.toLower = word) : lowerFrom before cs = word := by
  rw [lowerFrom_of_ascii, h]
  intro c hc
  have hmem : c.toLower ∈ word := h ▸ List.mem_map_of_mem hc
  exact ascii_of_toLower (of_decide_eq_true (List.all_eq_true.mp hword _ hmem))

theorem dropWhile_eq_self {p : Char → Bool} : cs.dropWhile p = cs ↔ cs.head?.map p ≠ some true := by
  cases cs with
  | nil => simp
  | cons c cs =>
    cases hc : p c with
    | false => simp [hc]
    | true =>
      have hlength := (List.dropWhile_sublist p : (cs.dropWhile p).Sublist cs).length_le
      simp only [List.dropWhile_cons_of_pos hc, List.head?_cons, Option.map_some, hc, ne_eq,
        not_true_eq_false, iff_false]
      intro heq
      rw [heq, List.length_cons] at hlength
      omega

theorem dropWhileEnd_eq_self {p : Char → Bool} :
    dropWhileEnd p cs = cs ↔ cs.getLast?.map p ≠ some true := by
  rw [dropWhileEnd, List.reverse_eq_iff, dropWhile_eq_self, List.head?_reverse]

theorem trim_eq_self : trim cs = cs ↔
    cs.head?.map isBlank ≠ some true ∧ cs.getLast?.map isBlank ≠ some true := by
  rw [← dropWhile_eq_self, ← dropWhileEnd_eq_self]
  constructor
  · intro h
    have hstart : trimStart cs = cs := by
      refine (List.dropWhile_sublist isBlank).eq_of_length_le ?_
      have hend : ((trimStart cs).reverse.dropWhile isBlank).length ≤ (trimStart cs).reverse.length :=
        (List.dropWhile_sublist isBlank).length_le
      have hlength : ((trimStart cs).reverse.dropWhile isBlank).length = cs.length := by
        rw [← List.length_reverse]
        exact congrArg List.length h
      rwa [hlength, List.length_reverse] at hend
    refine ⟨hstart, ?_⟩
    rwa [trim, hstart] at h
  · rintro ⟨hstart, hend⟩
    rw [trim, trimStart, hstart]
    exact hend

theorem isBlank_eq : isBlank = inRanges blanks := rfl

theorem trim_lowerFrom (before cs : List Char) :
    trim (lowerFrom before cs) = lowerFrom before cs ↔ trim cs = cs := by
  rw [trim_eq_self, trim_eq_self, isBlank_eq, uncased_blanks.head?_lowerFrom,
    uncased_blanks.getLast?_lowerFrom]

theorem inRanges_backslash : inRanges [(0x5C, 0x5C)] c = true ↔ c = '\\' := by
  rw [← Char.toNat_inj]
  simp only [inRanges, List.any_cons, List.any_nil, Bool.or_false, Bool.and_eq_true,
    decide_eq_true_eq]
  have : '\\'.toNat = 0x5C := rfl
  omega

theorem backslash_mem_lowerFrom (before cs : List Char) :
    '\\' ∈ lowerFrom before cs ↔ '\\' ∈ cs := by
  have hmem (cs : List Char) : cs.any (inRanges [(0x5C, 0x5C)]) = true ↔ '\\' ∈ cs := by
    simp only [List.any_eq_true, inRanges_backslash, exists_eq_right]
  rw [← hmem, ← hmem, uncased_backslash.any_lowerFrom]

theorem splitOnce?_append {d : Char} {front rest : List Char} (h : d ∉ front) :
    splitOnce? d (front ++ d :: rest) = some (front, rest) := by
  induction front with
  | nil => simp [splitOnce?]
  | cons c front ih =>
    obtain ⟨hc, hfront⟩ := not_or.mp fun hm => h (List.mem_cons.mpr hm)
    rw [List.cons_append, splitOnce?, if_neg (Ne.symm hc), ih hfront]
    rfl

theorem splitOnce?_eq_none {d : Char} (h : d ∉ cs) : splitOnce? d cs = none := by
  induction cs with
  | nil => rfl
  | cons c cs ih =>
    obtain ⟨hc, hcs⟩ := not_or.mp fun hm => h (List.mem_cons.mpr hm)
    rw [splitOnce?, if_neg (Ne.symm hc), ih hcs]
    rfl

end SemanticIndex.Text
