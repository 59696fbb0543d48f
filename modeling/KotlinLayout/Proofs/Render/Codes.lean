import KotlinLayout.Proofs.Document.Built
import KotlinLayout.Render.Color

/-!
Terminal codes in a text, and the text without them. A code is an escape character and a bracket,
then digits and semicolons, and an `m`. Where colours are switched by such codes, one after
another, nothing of them is left.
-/

namespace KotlinLayout

namespace Text

def escapeCharacter : Char := '\x1b'

def isParameter (character : Char) : Bool := character.isDigit || character = ';'

/-- The length of the rest of a code, from its parameters on. -/
def parametersLength? : List Char → Option Nat
  | [] => none
  | character :: rest =>
      if character = 'm' then some 1
      else if isParameter character then (parametersLength? rest).map (· + 1)
      else none

def codeLength? : List Char → Option Nat
  | first :: second :: rest =>
      if first = escapeCharacter ∧ second = '[' then (parametersLength? rest).map (· + 2) else none
  | _ => none

/-- The characters outside of codes, after those of a code that was begun. -/
def uncodedAfter : Nat → List Char → List Char
  | _, [] => []
  | skipped + 1, _ :: rest => uncodedAfter skipped rest
  | 0, character :: rest =>
      match codeLength? (character :: rest) with
      | some length => uncodedAfter (length - 1) rest
      | none => character :: uncodedAfter 0 rest

def uncoded (text : String) : String := String.ofList (uncodedAfter 0 text.toList)

theorem uncoded_after_append (code later : List Char) :
    uncodedAfter code.length (code ++ later) = uncodedAfter 0 later := by
  induction code with
  | nil => rfl
  | cons character rest induction => exact induction

/-- Characters that are no escape stand outside of codes. -/
theorem uncoded_unescaped {text : List Char} (unescaped : escapeCharacter ∉ text)
    (later : List Char) : uncodedAfter 0 (text ++ later) = text ++ uncodedAfter 0 later := by
  induction text with
  | nil => rfl
  | cons character rest induction =>
      rcases not_or.mp (mt List.mem_cons.mpr unescaped) with ⟨other, more⟩
      have noCode : codeLength? (character :: (rest ++ later)) = none := by
        cases rest ++ later with
        | nil => rfl
        | cons second others => exact if_neg fun both => other both.1.symm
      rw [List.cons_append, uncodedAfter, noCode, List.cons_append]
      simp only [induction more]

/-- Terminal codes one after another, or none. -/
inductive Codes : List Char → Prop where
  | nil : Codes []
  | cons {parameters later : List Char} :
      (∀ character ∈ parameters, isParameter character = true) → Codes later →
        Codes (escapeCharacter :: '[' :: (parameters ++ 'm' :: later))

theorem Codes.append {first second : List Char} (front : Codes first) (back : Codes second) :
    Codes (first ++ second) := by
  induction front with
  | nil => exact back
  | cons each _ induction => simpa using Codes.cons each induction

theorem parameters_length_eq {parameters : List Char}
    (each : ∀ character ∈ parameters, isParameter character = true) (later : List Char) :
    parametersLength? (parameters ++ 'm' :: later) = some (parameters.length + 1) := by
  induction parameters with
  | nil => rfl
  | cons character rest induction =>
      rcases List.forall_mem_cons.mp each with ⟨isParameter, more⟩
      have notLast : character ≠ 'm' := by
        rintro rfl
        exact absurd isParameter (by decide)
      rw [List.cons_append, parametersLength?, if_neg notLast, if_pos isParameter, induction more]
      rfl

/-- Nothing is left of codes, whatever comes after them. -/
theorem Codes.uncoded_after {code : List Char} (codes : Codes code) (later : List Char) :
    uncodedAfter 0 (code ++ later) = uncodedAfter 0 later := by
  induction codes with
  | nil => rfl
  | @cons parameters others each _ induction =>
      have length := parameters_length_eq each (others ++ later)
      have skips := uncoded_after_append ('[' :: (parameters ++ ['m'])) (others ++ later)
      rw [List.cons_append, uncodedAfter]
      simp only [List.cons_append, List.append_assoc, List.nil_append, codeLength?, and_self,
        if_true, length, Option.map_some] at skips ⊢
      rw [← induction]
      simpa using skips

end Text

open Text (Codes isParameter)

def Item.Unescaped : Item → Prop
  | .text value => Text.escapeCharacter ∉ value.toList
  | _ => True

namespace ColorMode

theorem parameter_of_mem_intercalate {parts : List (List Char)}
    (each : ∀ part ∈ parts, ∀ character ∈ part, isParameter character = true) :
    ∀ character ∈ [';'].intercalate parts, isParameter character = true := by
  induction parts with
  | nil => simp
  | cons part rest induction =>
      rcases List.forall_mem_cons.mp each with ⟨first, more⟩
      cases rest with
      | nil => simpa using first
      | cons second others =>
          rw [List.intercalate_cons_cons, List.forall_mem_append, List.forall_mem_append]
          exact ⟨⟨first, List.forall_mem_singleton.mpr (by decide)⟩, induction more⟩

theorem parameter_of_mem_number (number : Nat) :
    ∀ character ∈ (toString number).toList, isParameter character = true := by
  intro character member
  have digits : (toString number).toList = Nat.toDigits 10 number := Nat.toList_repr
  rw [digits] at member
  rw [isParameter, Nat.isDigit_of_mem_toDigits (by decide) (by decide) member, Bool.true_or]

theorem coded (mode : ColorMode) (parameters : List Nat) :
    Codes (mode.code parameters).toList := by
  cases mode with
  | none => exact .nil
  | trueColor =>
      have each : ∀ character ∈ [';'].intercalate
          ((parameters.map toString).map String.toList), isParameter character = true := by
        apply parameter_of_mem_intercalate
        rw [List.map_map, List.forall_mem_map]
        exact fun number _ => parameter_of_mem_number number
      have whole := Codes.cons each .nil
      have same : (code .trueColor parameters).toList = Text.escapeCharacter :: '[' ::
          ([';'].intercalate ((parameters.map toString).map String.toList) ++ ['m']) := by
        rw [code, String.toList_append, String.toList_append, String.toList_intercalate]
        rfl
      rwa [same]

end ColorMode

theorem Look.coded {mode : ColorMode} {look : Look} {text : String}
    (success : look.codes mode = .ok text) : Codes text.toList := by
  have optional (wanted : Bool) (parameters : List Nat) :
      Codes (if wanted then mode.code parameters else "").toList := by
    cases wanted with
    | true => exact mode.coded parameters
    | false => exact .nil
  have around {colors : String} (codes : Codes colors.toList)
      (success : (if look.underline then .error (.unknownColor "underline")
        else .ok (mode.reset ++ colors ++ (if look.bold then mode.code [1] else "") ++
          (if look.italic then mode.code [3] else "")) : Except Fault String) = .ok text) :
      Codes text.toList := by
    split at success
    · cases success
    · cases success
      rw [String.toList_append, String.toList_append, String.toList_append]
      exact (((mode.coded [0]).append codes).append (optional _ _)).append (optional _ _)
  rcases bind_eq_ok_iff.mp success with ⟨foreground, -, success⟩
  rcases bind_eq_ok_iff.mp success with ⟨background, -, success⟩
  match foreground, background with
  | none, none => exact @around "" .nil success
  | some front, none => exact around (mode.coded _) success
  | some front, some back =>
      apply around _ success
      rw [String.toList_append]
      exact (mode.coded _).append (mode.coded _)
  | none, some back => cases success

/-- Every token has a colour, and colours are switched by terminal codes. -/
structure Coloring.Coded (coloring : Coloring) : Prop where
  reset : Codes coloring.reset.toList
  token : ∀ token, ∃ code, coloring.code token = .ok code ∧ Codes code.toList

theorem Style.standard_code (mode : ColorMode) (token : Token) :
    ∃ code, (Style.standard.coloring mode).code token = .ok code := by
  cases mode <;> cases token <;> exact ⟨_, rfl⟩

theorem Style.standard_coded (mode : ColorMode) : (Style.standard.coloring mode).Coded := by
  refine ⟨mode.coded [0], fun token => ?_⟩
  obtain ⟨code, success⟩ := standard_code mode token
  exact ⟨code, success, Look.coded success⟩

end KotlinLayout
