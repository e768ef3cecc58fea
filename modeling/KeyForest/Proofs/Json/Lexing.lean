import KeyForest.Json.Printer
import KeyForest.Json.Token
import Mathlib.Data.List.Forall2
import Mathlib.Data.List.TakeWhile
import Mathlib.Tactic

/-!
# The lexemes of written values

A value is written as its lexemes, one after the other (`run_render`). A word or number has no end of
its own but ends at the next mark, so what is known of a piece of text is what it adds to the lexemes
once its last word is ended (`Lexes`), and pieces are put together at marks (`Lexes.append_mark`).
-/
namespace KeyForest.Json

/-! ### Values and their lexemes -/

/-- Values in which numbers are spelled as numbers, and no text is broken. -/
inductive Proper : Json → Prop
  | null : Proper .null
  | boolean (value : Bool) : Proper (.boolean value)
  | number {spelling : String} : isNumber spelling.toList = true → Proper (.number spelling)
  | text (value : String) : Proper (.text value)
  | list {items : List Json} : (∀ item ∈ items, Proper item) → Proper (.list items)
  | object {members : List (String × Json)} : (∀ member ∈ members, Proper member.2) →
      Proper (ofFields members)

mutual

/-- The lexemes of a value. -/
def lexemes : Json → List Token
  | .null => [.null]
  | .boolean value => [.boolean value]
  | .number spelling => [.number spelling]
  | .text value => [.quoted (some value)]
  | .brokenText => [.quoted none]
  | .list items => .openList :: [.comma].intercalate (itemLexemes items) ++ [.closeList]
  | .object members => .openObject :: [.comma].intercalate (memberLexemes members) ++ [.closeObject]

def itemLexemes : List Json → List (List Token)
  | [] => []
  | item :: rest => lexemes item :: itemLexemes rest

def memberLexemes : List (Option String × Json) → List (List Token)
  | [] => []
  | (name, value) :: rest => (.quoted name :: .colon :: lexemes value) :: memberLexemes rest

end

theorem itemLexemes_eq (items : List Json) : itemLexemes items = items.map lexemes := by
  induction items with
  | nil => rfl
  | cons item items ih => rw [itemLexemes, ih, List.map_cons]

theorem memberLexemes_eq (members : List (Option String × Json)) : memberLexemes members =
    members.map fun member => .quoted member.1 :: .colon :: lexemes member.2 := by
  induction members with
  | nil => rfl
  | cons member members ih => rw [memberLexemes, ih, List.map_cons]

theorem renderItems_eq (items : List Json) : renderItems items = items.map render := by
  induction items with
  | nil => rfl
  | cons item items ih => rw [renderItems, ih, List.map_cons]

theorem renderMembers_eq (members : List (Option String × Json)) : renderMembers members =
    members.map fun member => quote (member.1.getD "\uFFFD") ++ ":" ++ render member.2 := by
  induction members with
  | nil => rfl
  | cons member members ih => rw [renderMembers, ih, List.map_cons]

/-! ### Steps that succeed -/

section Steps

variable {σ α : Type} {f : σ → α → Option σ} {s t : σ} {a : α} {l : List α}

theorem foldlM_cons_of_some (h : f s a = some t) : (a :: l).foldlM f s = l.foldlM f t := by
  rw [List.foldlM_cons, h, Option.bind_eq_bind, Option.bind_some]

theorem foldlM_append_of_some (h : l.foldlM f s = some t) (l' : List α) :
    (l ++ l').foldlM f s = l'.foldlM f t := by
  rw [List.foldlM_append, h, Option.bind_eq_bind, Option.bind_some]

end Steps

/-! ### Pieces of text -/

namespace Lexer

variable {lexer settled : Lexer} {c : Char}

/-- Ends the word under way, if there is one. -/
def settle (lexer : Lexer) : Option Lexer :=
  match lexer.mode with
  | .between => some lexer
  | .word chars => lexer.endWord chars
  | _ => none

theorem finish_eq (lexer : Lexer) : lexer.finish = lexer.settle.map (·.tokens.reverse) := by
  cases lexer with
  | mk mode tokens => cases mode <;> rfl

/-- At a character that belongs to no word the word under way is ended. -/
theorem step_of_settle (h : lexer.settle = some settled) (hc : isWordChar c = false) :
    lexer.step c = settled.begin c := by
  cases lexer with
  | mk mode tokens =>
    cases mode with
    | between =>
      cases h
      rfl
    | word chars =>
      rw [settle] at h
      rw [step]
      dsimp only at h ⊢
      rw [hc, if_neg Bool.false_ne_true, h, Option.bind_some]
    | quoted _ => cases h
    | escape _ => cases h
    | hex _ _ _ => cases h

theorem begin_of_isWordChar (hc : isWordChar c = true) :
    lexer.begin c = some { lexer with mode := .word [c] } := by
  unfold begin
  split <;> first | exact absurd hc (by decide) | rw [if_pos hc]

end Lexer

open Lexer

variable {text rest : List Char} {tokens tokens' : List Token} {c : Char} {token : Token}

/-- Whatever lexemes stand before it, the text adds these, once its last word is ended. -/
def Lexes (text : List Char) (tokens : List Token) : Prop :=
  ∀ done, ∃ lexer, text.foldlM step ⟨.between, done⟩ = some lexer ∧
    lexer.settle = some ⟨.between, tokens.reverse ++ done⟩

/-- The character is a lexeme by itself. -/
def Marks (c : Char) (token : Token) : Prop :=
  isWordChar c = false ∧ ∀ lexer : Lexer, lexer.begin c = some (lexer.emit token)

theorem marks_openList : Marks '[' .openList := ⟨by decide, fun _ => rfl⟩

theorem marks_closeList : Marks ']' .closeList := ⟨by decide, fun _ => rfl⟩

theorem marks_openObject : Marks '\x7b' .openObject := ⟨by decide, fun _ => rfl⟩

theorem marks_closeObject : Marks '\x7d' .closeObject := ⟨by decide, fun _ => rfl⟩

theorem marks_comma : Marks ',' .comma := ⟨by decide, fun _ => rfl⟩

theorem marks_colon : Marks ':' .colon := ⟨by decide, fun _ => rfl⟩

theorem lexes_nil : Lexes [] [] := fun done => ⟨⟨.between, done⟩, rfl, rfl⟩

theorem Lexes.append_mark (h : Lexes text tokens) (hmark : Marks c token)
    (hrest : Lexes rest tokens') : Lexes (text ++ c :: rest) (tokens ++ token :: tokens') := by
  intro done
  obtain ⟨lexer, hread, hsettle⟩ := h done
  obtain ⟨last, hread', hsettle'⟩ := hrest (token :: (tokens.reverse ++ done))
  refine ⟨last, ?_, ?_⟩
  · have hstep : lexer.step c = some ⟨.between, token :: (tokens.reverse ++ done)⟩ := by
      rw [step_of_settle hsettle hmark.1, hmark.2]
      rfl
    rw [foldlM_append_of_some hread, foldlM_cons_of_some hstep, hread']
  · rw [hsettle']
    simp

theorem Lexes.cons_mark (hmark : Marks c token) (hrest : Lexes rest tokens') :
    Lexes (c :: rest) (token :: tokens') := lexes_nil.append_mark hmark hrest

theorem Lexes.concat_mark (h : Lexes text tokens) (hmark : Marks c token) :
    Lexes (text ++ [c]) (tokens ++ [token]) := h.append_mark hmark lexes_nil

theorem lexes_intercalate {texts : List (List Char)} {lists : List (List Token)}
    (h : List.Forall₂ Lexes texts lists) :
    Lexes ([','].intercalate texts) ([.comma].intercalate lists) := by
  induction h with
  | nil => exact lexes_nil
  | @cons text tokens texts lists hfirst hrest ih =>
    cases hrest with
    | nil => simpa using hfirst
    | cons hsecond hrest =>
      rw [List.intercalate_cons_cons, List.intercalate_cons_cons, List.append_assoc,
        List.append_assoc]
      exact hfirst.append_mark marks_comma ih

/-! ### Words and numbers -/

theorem foldlM_word {word : List Char} (h : ∀ c ∈ word, isWordChar c = true) (chars : List Char)
    (done : List Token) : word.foldlM step ⟨.word chars, done⟩ =
      some ⟨.word (word.reverse ++ chars), done⟩ := by
  induction word generalizing chars with
  | nil => rfl
  | cons c word ih =>
    obtain ⟨hc, hword⟩ := List.forall_mem_cons.mp h
    have hstep : step ⟨.word chars, done⟩ c = some ⟨.word (c :: chars), done⟩ := if_pos hc
    rw [foldlM_cons_of_some hstep, ih hword]
    simp

theorem lexes_word (h : ∀ c ∈ text, isWordChar c = true) (htoken : Token.ofWord text = some token) :
    Lexes text [token] := by
  intro done
  cases text with
  | nil => simp [Token.ofWord, isNumber, isUnsigned, digits1] at htoken
  | cons c word =>
    obtain ⟨hc, hword⟩ := List.forall_mem_cons.mp h
    refine ⟨⟨.word (word.reverse ++ [c]), done⟩, ?_, ?_⟩
    · have hstep : step ⟨.between, done⟩ c = some ⟨.word [c], done⟩ := begin_of_isWordChar hc
      rw [foldlM_cons_of_some hstep, foldlM_word hword]
    · rw [settle]
      dsimp only
      rw [endWord, List.reverse_append, List.reverse_reverse]
      simp [htoken, emit]

theorem isWordChar_of_isDigit (h : c.isDigit = true) : isWordChar c = true := by
  simp [isWordChar, Char.isAlphanum, h]

/-- Digits belong to words, so only what stands after them can end a word. -/
theorem isWordChar_of_digits1 (h : digits1 text = some rest)
    (hrest : ∀ c ∈ rest, isWordChar c = true) : ∀ c ∈ text, isWordChar c = true := by
  cases text with
  | nil => contradiction
  | cons first text =>
    rw [digits1] at h
    split at h
    · rename_i hfirst
      cases h
      rw [← List.takeWhile_append_dropWhile (p := Char.isDigit) (l := text), List.forall_mem_cons,
        List.forall_mem_append]
      refine ⟨isWordChar_of_isDigit hfirst, fun c hc => ?_, hrest⟩
      exact isWordChar_of_isDigit (List.mem_takeWhile_imp hc)
    · contradiction

theorem isWordChar_of_endsNumber (h : endsNumber text = true) :
    ∀ c ∈ text, isWordChar c = true := by
  have hdigits {digits : List Char} (hends : (digits1 digits == some []) = true) :
      ∀ c ∈ digits, isWordChar c = true :=
    isWordChar_of_digits1 (beq_iff_eq.mp hends) (by simp)
  unfold endsNumber at h
  split at h
  · simp
  iterate 4
    exact List.forall_mem_cons.mpr ⟨by decide, List.forall_mem_cons.mpr ⟨by decide, hdigits h⟩⟩
  iterate 2 exact List.forall_mem_cons.mpr ⟨by decide, hdigits h⟩
  · contradiction

theorem isWordChar_of_isUnsigned (h : isUnsigned text = true) :
    ∀ c ∈ text, isWordChar c = true := by
  unfold isUnsigned at h
  extract_lets whole at h
  have hwhole {rest : List Char} (heq : whole = some rest)
      (hrest : ∀ c ∈ rest, isWordChar c = true) : ∀ c ∈ text, isWordChar c = true := by
    subst whole
    split at heq
    · cases heq
      exact List.forall_mem_cons.mpr ⟨by decide, hrest⟩
    · exact isWordChar_of_digits1 heq hrest
  clear_value whole
  split at h
  · rename_i rest
    refine hwhole rfl (List.forall_mem_cons.mpr ⟨by decide, ?_⟩)
    cases hdigits : digits1 rest with
    | none => simp [hdigits] at h
    | some left =>
      rw [hdigits] at h
      exact isWordChar_of_digits1 hdigits (isWordChar_of_endsNumber h)
  · exact hwhole rfl (isWordChar_of_endsNumber h)
  · contradiction

theorem isWordChar_of_isNumber (h : isNumber text = true) : ∀ c ∈ text, isWordChar c = true := by
  unfold isNumber at h
  split at h
  · exact List.forall_mem_cons.mpr ⟨by decide, isWordChar_of_isUnsigned h⟩
  · exact isWordChar_of_isUnsigned h

theorem ofWord_of_isNumber (h : isNumber text = true) :
    Token.ofWord text = some (.number (String.ofList text)) := by
  have hne {word : List Char} (hword : isNumber word = false) : text ≠ word := by
    rintro rfl
    rw [hword] at h
    contradiction
  rw [Token.ofWord, if_neg (hne (by decide)), if_neg (hne (by decide)), if_neg (hne (by decide)),
    if_pos h]

/-! ### Quoted texts -/

theorem hexValue?_hexDigit {n : ℕ} (hn : n < 16) : Text.hexValue? (hexDigit n) = some n := by
  revert n
  decide

theorem shortEscape?_of_escapeLetter? {letter : Char} (h : escapeLetter? c = some letter) :
    shortEscape? letter = some c.toNat ∧ letter ≠ 'u' := by
  unfold escapeLetter? at h
  split at h <;> cases h <;> decide

theorem ne_of_escapeLetter?_eq_none (h : escapeLetter? c = none) : c ≠ '"' ∧ c ≠ '\\' := by
  constructor
  all_goals
    rintro rfl
    contradiction

/-- An escaped character is read as its code point. -/
theorem foldlM_escapeChar (c : Char) (units : List ℕ) (done : List Token) :
    (escapeChar c).foldlM step ⟨.quoted units, done⟩ = some ⟨.quoted (c.toNat :: units), done⟩ := by
  unfold escapeChar
  cases hletter : escapeLetter? c with
  | some letter =>
    obtain ⟨hshort, hne⟩ := shortEscape?_of_escapeLetter? hletter
    simp [step, hshort, hne]
  | none =>
    obtain ⟨hquote, hslash⟩ := ne_of_escapeLetter?_eq_none hletter
    dsimp only
    split
    · rename_i hlt
      have hhigh := hexValue?_hexDigit (n := c.toNat / 16) (by omega)
      have hlow := hexValue?_hexDigit (n := c.toNat % 16) (by omega)
      have hvalue : 16 * (c.toNat / 16) + c.toNat % 16 = c.toNat := Nat.div_add_mod _ _
      have hzero : Text.hexValue? '0' = some 0 := rfl
      simp [step, hhigh, hlow, hzero, hvalue]
    · rename_i hge
      simp [step, hquote, hslash, hge]

theorem foldlM_escaped (chars : List Char) (units : List ℕ) (done : List Token) :
    (chars.flatMap escapeChar).foldlM step ⟨.quoted units, done⟩ =
      some ⟨.quoted ((chars.map Char.toNat).reverse ++ units), done⟩ := by
  induction chars generalizing units with
  | nil => rfl
  | cons c chars ih =>
    rw [List.flatMap_cons, foldlM_append_of_some (foldlM_escapeChar c units done), ih]
    simp

/-- No character is half of a surrogate pair. -/
theorem not_surrogate (c : Char) : ¬ (0xD800 ≤ c.toNat ∧ c.toNat < 0xE000) := by
  have hvalid : c.toNat < 0xD800 ∨ 0xDFFF < c.toNat ∧ c.toNat < 0x110000 := c.valid
  omega

theorem joinUnits_map_toNat (chars : List Char) :
    joinUnits (chars.map Char.toNat) = some chars := by
  induction chars with
  | nil => rfl
  | cons c chars ih =>
    have hc := not_surrogate c
    cases chars with
    | nil => rw [List.map_singleton, joinUnits, if_neg hc, Char.ofNat_toNat]
    | cons next chars =>
      rw [List.map_cons] at ih
      rw [List.map_cons, List.map_cons, joinUnits, if_neg (by omega), if_neg (by omega), ih,
        Option.map_some, Char.ofNat_toNat]

theorem lexes_quote (s : String) : Lexes (quote s).toList [.quoted (some s)] := by
  intro done
  refine ⟨⟨.between, .quoted (some s) :: done⟩, ?_, rfl⟩
  have hstart : step ⟨.between, done⟩ '"' = some ⟨.quoted [], done⟩ := rfl
  rw [quote, String.toList_ofList, List.cons_append, foldlM_cons_of_some hstart,
    foldlM_append_of_some (foldlM_escaped s.toList [] done)]
  simp [step, emit, joinUnits_map_toNat]

/-! ### Values -/

theorem lexes_render {value : Json} (h : value.Proper) :
    Lexes value.render.toList value.lexemes := by
  induction h with
  | null => exact lexes_word (List.all_eq_true.mp rfl) rfl
  | boolean value => cases value <;> exact lexes_word (List.all_eq_true.mp rfl) rfl
  | number hnumber =>
    have hword := ofWord_of_isNumber hnumber
    rw [String.ofList_toList] at hword
    exact lexes_word (isWordChar_of_isNumber hnumber) hword
  | text value => exact lexes_quote value
  | @list items _ ih =>
    have hitems : List.Forall₂ Lexes ((items.map render).map String.toList)
        (items.map lexemes) := by
      rw [List.map_map, List.forall₂_map_left_iff, List.forall₂_map_right_iff, List.forall₂_same]
      exact ih
    rw [render, lexemes, renderItems_eq, itemLexemes_eq, String.toList_append, String.toList_append,
      String.toList_intercalate]
    exact ((lexes_intercalate hitems).concat_mark marks_closeList).cons_mark marks_openList
  | @object members _ ih =>
    have hmember (member : String × Json) (hmem : member ∈ members) :
        Lexes ((quote member.1).toList ++ ':' :: member.2.render.toList)
          (.quoted (some member.1) :: .colon :: member.2.lexemes) :=
      (lexes_quote member.1).append_mark marks_colon (ih member hmem)
    rw [ofFields, render, lexemes, renderMembers_eq, memberLexemes_eq, String.toList_append,
      String.toList_append, String.toList_intercalate]
    refine ((lexes_intercalate ?_).concat_mark marks_closeObject).cons_mark marks_openObject
    rw [List.map_map, List.map_map, List.map_map, List.forall₂_map_left_iff,
      List.forall₂_map_right_iff, List.forall₂_same]
    intro member hmem
    simpa using hmember member hmem

/-- A written value is cut into its lexemes. -/
theorem run_render {value : Json} (h : value.Proper) :
    Lexer.run value.render = some value.lexemes := by
  obtain ⟨lexer, hread, hsettle⟩ := lexes_render h []
  rw [Lexer.run, Lexer.start, hread, Option.bind_some, finish_eq, hsettle]
  simp

end KeyForest.Json
