import KeyForest.Proofs.Text
import KeyForest.Text.LetterCase
import Mathlib.Data.List.Basic
import Mathlib.Data.List.Induction

/-!
# Lower case of a part of a text

The lower-case form of a part of a text is a part of the lower-case form of the text, unless a sigma
is the last letter of a word in one of them and not in the other (`keepsSigmas_iff`). Blanks around
a part make no difference, because they end words just as the end of the text does.
-/
namespace KeyForest.Text

/-! ### Sigmas -/

/-- Whether a sigma between two stretches of text is at the end of a word; `before` holds the
characters before it, nearest first. -/
def isFinal (before after : List Char) : Bool := meetsCased before && !meetsCased after

/-- Lower case of `cs` between other characters. -/
def lowerIn (before after : List Char) : List Char → List Char
  | [] => []
  | c :: rest =>
    (if c = 'Σ' then [if isFinal before (rest ++ after) then 'ς' else 'σ'] else lowerChar c) ++
      lowerIn (c :: before) after rest

/-- Whether each sigma of a part has between `front` and `back` the form that it has in the part
alone. -/
def KeepsSigmas (front part back : List Char) : Prop :=
  ∀ left right, part = left ++ 'Σ' :: right →
    isFinal (front ++ left).reverse (right ++ back) = isFinal left.reverse right

variable {before before' after after' front back lead trail cs : List Char}

theorem lowerIn_nil (before cs : List Char) : lowerIn before [] cs = lowerAfter before cs := by
  induction cs generalizing before with
  | nil => rfl
  | cons c rest ih =>
    rw [lowerIn, lowerAfter, ih, List.append_nil]
    rfl

theorem lowerIn_append (before after cs ds : List Char) : lowerIn before after (cs ++ ds) =
    lowerIn before (ds ++ after) cs ++ lowerIn (cs.reverse ++ before) after ds := by
  induction cs generalizing before with
  | nil => rfl
  | cons c cs ih => simp [lowerIn, ih]

theorem forall_split_cons {c d : Char} {P : List Char → List Char → Prop} :
    (∀ left right, c :: cs = left ++ d :: right → P left right) ↔
      (c = d → P [] cs) ∧ ∀ left right, cs = left ++ d :: right → P (c :: left) right := by
  constructor
  · intro h
    refine ⟨fun hc => h [] cs (by rw [hc, List.nil_append]), fun left right hcs => ?_⟩
    exact h (c :: left) right (by rw [hcs, List.cons_append])
  · rintro ⟨hhead, htail⟩ left right hcs
    cases left with
    | nil =>
      obtain ⟨rfl, rfl⟩ := List.cons.inj hcs
      exact hhead rfl
    | cons first left =>
      obtain ⟨rfl, hrest⟩ := List.cons.inj hcs
      exact htail left right hrest

/-- Lower case hangs on the surroundings only at sigmas. -/
theorem lowerIn_eq_iff : lowerIn before after cs = lowerIn before' after' cs ↔
    ∀ left right, cs = left ++ 'Σ' :: right →
      isFinal (left.reverse ++ before) (right ++ after) =
        isFinal (left.reverse ++ before') (right ++ after') := by
  induction cs generalizing before before' with
  | nil => simp [lowerIn]
  | cons c rest ih =>
    have hform (a b : Bool) : (if a then 'ς' else 'σ') = (if b then 'ς' else 'σ') ↔ a = b := by
      cases a <;> cases b <;> decide
    rw [forall_split_cons, lowerIn, lowerIn]
    split
    · rename_i hsigma
      rw [List.singleton_append, List.singleton_append, List.cons.injEq, hform, ih]
      simp [hsigma]
    · rename_i hother
      rw [List.append_cancel_left_eq, ih]
      simp [hother]

theorem keepsSigmas_iff :
    KeepsSigmas front cs back ↔ lowerIn front.reverse back cs = lowerAfter [] cs := by
  rw [← lowerIn_nil, lowerIn_eq_iff, KeepsSigmas]
  simp

instance : Decidable (KeepsSigmas front cs back) := decidable_of_iff _ keepsSigmas_iff.symm

/-- Text without sigmas is lowered alike everywhere. -/
theorem keepsSigmas_of_not_mem (h : 'Σ' ∉ cs) (front back : List Char) :
    KeepsSigmas front cs back := by
  rintro left right rfl
  exact absurd (List.mem_append_right left List.mem_cons_self) h

theorem length_lowerIn : (lowerIn before after cs).length = (lowerIn before' after' cs).length := by
  induction cs generalizing before before' with
  | nil => rfl
  | cons c rest ih =>
    rw [lowerIn, lowerIn, List.length_append, List.length_append, ih]
    split <;> rfl

/-- A sigma becomes one of the two small sigmas. -/
theorem sigma_mem_lowerIn (before after : List Char) (h : 'Σ' ∈ cs) :
    'σ' ∈ lowerIn before after cs ∨ 'ς' ∈ lowerIn before after cs := by
  obtain ⟨left, right, rfl⟩ := List.append_of_mem h
  rw [lowerIn_append, lowerIn, if_pos rfl]
  split <;> simp

theorem meetsCased_append_congr (cs : List Char) (h : meetsCased before = meetsCased before') :
    meetsCased (cs ++ before) = meetsCased (cs ++ before') := by
  induction cs with
  | nil => exact h
  | cons c cs ih =>
    by_cases hc : isCaseIgnorable c = true
    · simpa [meetsCased, hc] using ih
    · simp [meetsCased, hc]

/-- The surroundings count only by the letters with case that are met in them. -/
theorem KeepsSigmas.congr {front' back' : List Char} (h : KeepsSigmas front cs back)
    (hfront : meetsCased front.reverse = meetsCased front'.reverse)
    (hback : meetsCased back = meetsCased back') : KeepsSigmas front' cs back' := by
  intro left right hcs
  rw [← h left right hcs, isFinal, isFinal, List.reverse_append, List.reverse_append,
    meetsCased_append_congr _ hfront, meetsCased_append_congr _ hback]

/-! ### Blanks -/

/-- The code points of blanks. -/
def blankRanges : List CodeRange :=
  [(0x9, 0xD), (0x20, 0x20), (0x85, 0x85), (0xA0, 0xA0), (0x1680, 0x1680), (0x2000, 0x200A),
  (0x2028, 0x2029), (0x202F, 0x202F), (0x205F, 0x205F), (0x3000, 0x3000)]

theorem isBlank_eq_mem (c : Char) : isBlank c = CodeRange.mem blankRanges c.toNat := by
  rw [Bool.eq_iff_iff]
  simp [isBlank, blankRanges, CodeRange.mem]
  omega

/-- Tables of code points that have no code point in common. -/
def CodeRange.disjoint (xs ys : List CodeRange) : Bool :=
  xs.all fun r => ys.all fun s => r.2 < s.1 || s.2 < r.1

theorem CodeRange.mem_eq_false {xs ys : List CodeRange} (h : disjoint xs ys = true) {n : ℕ}
    (hn : mem ys n = true) : mem xs n = false := by
  rw [← Bool.not_eq_true]
  intro hn'
  obtain ⟨r, hr, hfirst, hlast⟩ := (mem_iff xs n).mp hn'
  obtain ⟨s, hs, hfirst', hlast'⟩ := (mem_iff ys n).mp hn
  have hrs := List.all_eq_true.mp (List.all_eq_true.mp h r hr) s hs
  simp only [Bool.or_eq_true, decide_eq_true_eq] at hrs
  omega

/-- Blanks end words. -/
theorem not_cased_of_isBlank {c : Char} (h : isBlank c = true) :
    isCaseIgnorable c = false ∧ isCased c = false := by
  rw [isBlank_eq_mem] at h
  exact ⟨CodeRange.mem_eq_false (by decide +kernel) h, CodeRange.mem_eq_false (by decide +kernel) h⟩

theorem meetsCased_of_blank (h : ∀ c ∈ cs, isBlank c = true) : meetsCased cs = false := by
  cases cs with
  | nil => rfl
  | cons c cs =>
    obtain ⟨hignorable, hcased⟩ := not_cased_of_isBlank (h c List.mem_cons_self)
    simp [meetsCased, hignorable, hcased]

/-- The code points with a lower-case letter of their own, and those letters. -/
def caseRanges : List CodeRange :=
  (lowerRuns.map fun run => (run.first, run.last)) ++
    lowerRuns.map fun run => ((run.first + run.shift).toNat, (run.last + run.shift).toNat)

theorem mem_caseRanges {run : CaseRun} (hrun : run ∈ lowerRuns) {n m : ℕ}
    (h : run.lower? n = some m) :
    CodeRange.mem caseRanges n = true ∧ CodeRange.mem caseRanges m = true := by
  obtain ⟨⟨hfirst, hlast, -⟩, rfl⟩ :
      (run.first ≤ n ∧ n ≤ run.last ∧ _) ∧ (n + run.shift).toNat = m := by
    simpa [CaseRun.lower?] using h
  rw [CodeRange.mem_iff, CodeRange.mem_iff]
  constructor
  · exact ⟨_, List.mem_append_left _ (List.mem_map_of_mem hrun), hfirst, hlast⟩
  · refine ⟨_, List.mem_append_right _ (List.mem_map_of_mem hrun), ?_, ?_⟩
    · exact Int.toNat_le_toNat (by omega)
    · exact Int.toNat_le_toNat (by omega)

theorem isBlank_ofNat {n : ℕ} (h : CodeRange.mem caseRanges n = true) :
    isBlank (Char.ofNat n) = false := by
  have hcode : (Char.ofNat n).toNat = n ∨ (Char.ofNat n).toNat = 0 := by
    by_cases hvalid : n.isValidChar
    · have hchar : Char.ofNat n = Char.ofNatAux n hvalid := dif_pos hvalid
      exact .inl (congrArg Char.toNat hchar)
    · have hchar : Char.ofNat n = '\x00' := dif_neg hvalid
      exact .inr (congrArg Char.toNat hchar)
  rw [isBlank_eq_mem]
  rcases hcode with heq | heq <;> rw [heq]
  · exact CodeRange.mem_eq_false (by decide +kernel) h
  · rfl

/-- Only blanks have blanks as their lower-case forms. -/
theorem isBlank_lowerChar {c d : Char} (hd : d ∈ lowerChar c) : isBlank d = isBlank c := by
  rw [lowerChar] at hd
  split at hd
  · rename_i hascii
    have hall : ∀ n < 128, isBlank (Char.ofNat n).toLower = isBlank (Char.ofNat n) := by
      decide +kernel
    rw [List.mem_singleton.mp hd, ← Char.ofNat_toNat c]
    exact hall c.toNat hascii
  · split at hd
    · rename_i hdotted
      rw [isBlank_eq_mem c, hdotted]
      simp only [List.mem_cons, List.not_mem_nil, or_false] at hd
      rcases hd with rfl | rfl <;> decide +kernel
    · rw [List.mem_singleton.mp hd]
      cases hlower : lowerRuns.findSome? (·.lower? c.toNat) with
      | none => rfl
      | some m =>
        obtain ⟨run, hrun, hm⟩ := List.exists_of_findSome?_eq_some hlower
        obtain ⟨hc, hm⟩ := mem_caseRanges hrun hm
        rw [Option.map_some, Option.getD_some, isBlank_ofNat hm, ← Char.ofNat_toNat c,
          isBlank_ofNat hc]

theorem exists_mem_of_mem_lowerIn {d : Char} (hd : d ∈ lowerIn before after cs) :
    ∃ c ∈ cs, isBlank d = isBlank c := by
  induction cs generalizing before with
  | nil => simp [lowerIn] at hd
  | cons c rest ih =>
    rw [lowerIn, List.mem_append] at hd
    rcases hd with hd | hd
    · refine ⟨c, List.mem_cons_self, ?_⟩
      split at hd
      · rename_i hsigma
        rw [List.mem_singleton.mp hd, hsigma]
        split <;> decide +kernel
      · exact isBlank_lowerChar hd
    · obtain ⟨c, hc, heq⟩ := ih hd
      exact ⟨c, List.mem_cons_of_mem _ hc, heq⟩

/-- Nothing but blanks is in the lower case of blanks. -/
theorem not_mem_lowerIn {d : Char} (hcs : ∀ c ∈ cs, isBlank c = true) (hd : isBlank d = false) :
    d ∉ lowerIn before after cs := by
  intro hmem
  obtain ⟨c, hc, heq⟩ := exists_mem_of_mem_lowerIn hmem
  rw [heq, hcs c hc] at hd
  contradiction

theorem lowerIn_singleton_ne_nil (before after : List Char) (c : Char) :
    lowerIn before after [c] ≠ [] := by
  simp only [lowerIn, lowerChar, List.append_nil]
  split
  · simp
  · split
    · simp
    · split <;> simp

/-- A text that begins with no blank begins with no blank in lower case. -/
theorem head_lowerIn (h : ∀ c ∈ cs.head?, isBlank c = false) :
    ∀ d ∈ (lowerIn before after cs).head?, isBlank d = false := by
  cases cs with
  | nil => simp [lowerIn]
  | cons c rest =>
    intro d hd
    rw [← List.singleton_append, lowerIn_append, List.head?_append_of_ne_nil _
      (lowerIn_singleton_ne_nil _ _ c)] at hd
    obtain ⟨c', hc', heq⟩ := exists_mem_of_mem_lowerIn (List.mem_of_mem_head? hd)
    rw [heq, List.mem_singleton.mp hc']
    exact h c rfl

/-- A text that ends in no blank ends in no blank in lower case. -/
theorem getLast_lowerIn (h : ∀ c ∈ cs.reverse.head?, isBlank c = false) :
    ∀ d ∈ (lowerIn before after cs).getLast?, isBlank d = false := by
  induction cs using List.reverseRecOn with
  | nil => simp [lowerIn]
  | append_singleton cs c _ =>
    intro d hd
    rw [lowerIn_append, List.getLast?_append_of_ne_nil _ (lowerIn_singleton_ne_nil _ _ c)] at hd
    obtain ⟨c', hc', heq⟩ := exists_mem_of_mem_lowerIn (List.mem_of_mem_getLast? hd)
    rw [heq, List.mem_singleton.mp hc']
    exact h c (by simp)

/-- Text of blanks alone is lowered alike everywhere. -/
theorem lowerIn_of_blank (h : ∀ c ∈ cs, isBlank c = true) :
    lowerIn before after cs = lowerIn before' after' cs := by
  refine lowerIn_eq_iff.mpr ?_
  rintro left right rfl
  exact absurd (h 'Σ' (by simp)) (by decide +kernel)

/-- Blanks around a text make no difference to how its sigmas stand in other text. -/
theorem keepsSigmas_blanks (hlead : ∀ c ∈ lead, isBlank c = true)
    (htrail : ∀ c ∈ trail, isBlank c = true) :
    KeepsSigmas front (lead ++ cs ++ trail) back ↔
      lowerIn (front ++ lead).reverse (trail ++ back) cs = lowerAfter [] cs := by
  have halone : lowerIn lead.reverse trail cs = lowerAfter [] cs := by
    rw [← lowerIn_nil, lowerIn_eq_iff]
    intro left right _
    have hbefore : meetsCased lead.reverse = meetsCased [] :=
      meetsCased_of_blank fun c hc => hlead c (List.mem_reverse.mp hc)
    have hafter : meetsCased trail = meetsCased [] := meetsCased_of_blank htrail
    rw [isFinal, isFinal, meetsCased_append_congr _ hbefore, meetsCased_append_congr _ hafter]
  rw [keepsSigmas_iff, ← lowerIn_nil]
  simp only [lowerIn_append, List.append_nil, List.append_assoc]
  rw [lowerIn_of_blank hlead, lowerIn_of_blank htrail, List.append_cancel_left_eq,
    List.append_cancel_right_eq, halone]
  simp

/-! ### Parts of a text -/

/-- What has its head not in a front begins behind it. -/
theorem length_le_of_head {α : Type} {start part front text : List α}
    (h : start ++ part = front ++ text) (hne : part ≠ []) (hhead : ∀ c ∈ part.head?, c ∉ front) :
    front.length ≤ start.length := by
  rcases List.append_eq_append_iff.mp h with ⟨extra, rfl, rfl⟩ | ⟨skip, rfl, -⟩
  · cases extra with
    | nil => simp
    | cons c extra => exact absurd (List.mem_append_right start List.mem_cons_self) (hhead c rfl)
  · simp

/-- A part that is as long as the middle of a text, with a head that is not in front of the middle
and a last element that is not behind it, can only be the middle. -/
theorem eq_of_infix {α : Type} {part front middle back : List α}
    (h : part <:+: front ++ middle ++ back) (hlength : part.length = middle.length)
    (hfront : ∀ c ∈ part.head?, c ∉ front) (hback : ∀ c ∈ part.getLast?, c ∉ back) :
    part = middle := by
  by_cases hne : part = []
  · subst hne
    exact (List.length_eq_zero_iff.mp hlength.symm).symm
  obtain ⟨start, rest, h⟩ := h
  have hstart : front.length ≤ start.length := by
    rw [List.append_assoc, List.append_assoc] at h
    refine length_le_of_head h (List.append_ne_nil_of_left_ne_nil hne rest) fun c hc => hfront c ?_
    rwa [List.head?_append_of_ne_nil _ hne] at hc
  have hrest : back.reverse.length ≤ rest.reverse.length := by
    have hreverse := congrArg List.reverse h
    simp only [List.reverse_append] at hreverse
    refine length_le_of_head hreverse (by simp [hne]) fun c hc => ?_
    rw [List.head?_append_of_ne_nil _ (by simpa using hne), List.head?_reverse] at hc
    exact fun hmem => hback c hc (List.mem_reverse.mp hmem)
  have htotal := congrArg List.length h
  simp only [List.length_append, List.length_reverse] at htotal hrest
  obtain ⟨hfront, -⟩ := List.append_inj h (by simp only [List.length_append]; omega)
  exact (List.append_inj hfront (by omega)).2

/-- Letters that meet or do not meet a sigma, told from a given character in lower case. -/
theorem exists_surroundings (cased : Bool) (avoid : Option Char) :
    ∃ cs : List Char, meetsCased cs = cased ∧ cs.reverse = cs ∧
      ∀ before after, ∀ d ∈ lowerIn before after cs, d ∉ avoid := by
  cases cased with
  | false => exact ⟨[], rfl, rfl, by simp [lowerIn]⟩
  | true =>
    by_cases ha : avoid = some 'a'
    · have hlower : lowerChar 'b' = ['b'] := by decide +kernel
      refine ⟨['b'], by decide +kernel, rfl, fun before after d hd => ?_⟩
      simp_all [lowerIn]
    · have hlower : lowerChar 'a' = ['a'] := by decide +kernel
      refine ⟨['a'], by decide +kernel, rfl, fun before after d hd => ?_⟩
      simp_all [lowerIn]

theorem sigma_mem_trimList (h : 'Σ' ∈ cs) : 'Σ' ∈ trimList cs := by
  obtain ⟨lead, trail, hcs, hlead, htrail⟩ := exists_trimList cs
  rw [hcs, List.mem_append, List.mem_append] at h
  rcases h with (h | h) | h
  · exact absurd (hlead 'Σ' h) (by decide +kernel)
  · exact h
  · exact absurd (htrail 'Σ' h) (by decide +kernel)

/-- Lower case of the middle of a text is the middle of its lower case. -/
theorem lowerAfter_middle (front middle back : List Char) :
    lowerAfter [] (front ++ middle ++ back) =
      lowerIn [] (middle ++ back) front ++ lowerIn front.reverse back middle ++
        lowerIn (front ++ middle).reverse [] back := by
  rw [← lowerIn_nil, lowerIn_append, lowerIn_append]
  simp

/-- A part of a text is found in the text, both in lower case, if its sigmas keep their forms;
blanks around the part do not count. -/
theorem KeepsSigmas.isInfix (h : KeepsSigmas front cs back) :
    lowerAfter [] (trimList cs) <:+: lowerAfter [] (front ++ cs ++ back) := by
  obtain ⟨lead, trail, hcs, hlead, htrail⟩ := exists_trimList cs
  rw [hcs, keepsSigmas_blanks hlead htrail] at h
  have hsplit : front ++ cs ++ back = (front ++ lead) ++ trimList cs ++ (trail ++ back) := by
    conv_lhs => rw [hcs]
    simp only [List.append_assoc]
  rw [hsplit, lowerAfter_middle, ← h]
  exact List.infix_append _ _ _

/-- Sigmas of a part keep their forms everywhere if the part is found wherever it is. -/
theorem keepsSigmas_of_isInfix
    (h : ∀ front back, lowerAfter [] (trimList cs) <:+: lowerAfter [] (front ++ cs ++ back))
    (front back : List Char) : KeepsSigmas front cs back := by
  obtain ⟨lead, trail, hcs, hlead, htrail⟩ := exists_trimList cs
  obtain ⟨front', hfront, hfront', hnotFirst⟩ := exists_surroundings (meetsCased front.reverse)
    (lowerAfter [] (trimList cs)).head?
  obtain ⟨back', hback, -, hnotLast⟩ := exists_surroundings (meetsCased back)
    (lowerAfter [] (trimList cs)).getLast?
  have hsplit : front' ++ cs ++ back' = (front' ++ lead) ++ trimList cs ++ (trail ++ back') := by
    conv_lhs => rw [hcs]
    simp only [List.append_assoc]
  have hpart := h front' back'
  rw [hsplit, lowerAfter_middle] at hpart
  have hlength : (lowerAfter [] (trimList cs)).length =
      (lowerIn (front' ++ lead).reverse (trail ++ back') (trimList cs)).length := by
    rw [← lowerIn_nil]
    exact length_lowerIn
  have hmiddle := eq_of_infix hpart hlength ?first ?last
  case first =>
    intro c hc
    rw [lowerIn_append, List.mem_append, not_or]
    refine ⟨fun hmem => hnotFirst _ _ c hmem hc, not_mem_lowerIn hlead ?_⟩
    rw [← lowerIn_nil] at hc
    exact head_lowerIn (head_trimList cs) c hc
  case last =>
    intro c hc
    rw [lowerIn_append, List.mem_append, not_or]
    refine ⟨not_mem_lowerIn htrail ?_, fun hmem => hnotLast _ _ c hmem hc⟩
    rw [← lowerIn_nil] at hc
    exact getLast_lowerIn (head_reverse_trimList cs) c hc
  have hkeeps : KeepsSigmas front' cs back' := by
    rw [hcs, keepsSigmas_blanks hlead htrail]
    exact hmiddle.symm
  exact hkeeps.congr (by rw [hfront', hfront]) hback

end KeyForest.Text
