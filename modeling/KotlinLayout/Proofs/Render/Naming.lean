import KotlinLayout.Proofs.Document.Built
import KotlinLayout.Render.Color

/-!
Names of colours. The colours of a look are put into a palette, which all looks share, and a name
that is made of theirs is asked for. A look with colours of six digits has the codes of the
numbers that the digits spell, unless it has a background alone or is underlined: both are asked
for by names that nothing goes by.
-/

namespace KotlinLayout

abbrev Palette := String → Option Rgb

def Palette.put (palette : Palette) (name : String) : Option Rgb → Palette
  | none => palette
  | some color => fun asked => if asked = name then some color else palette asked

structure Terminal where
  /-- The parameter of a modifier's code. -/
  modifier : String → Option Nat
  /-- The codes of a name whose colours are in a palette. -/
  codes : Palette → String → Except Fault String

namespace Look

/-- The names that the colours of every look are put into the palette by. -/
def frontName : String := "ktprintCurrFg"

def backName : String := "ktprintCurrBg"

def colorsName (front back : Option Rgb) : String :=
  (if front.isSome then frontName else "") ++ (if back.isSome then "_on_" ++ backName else "")

def namedColors (terminal : Terminal) (palette : Palette) (front back : Option Rgb) :
    Except Fault String :=
  if front.isSome || back.isSome then terminal.codes palette (colorsName front back) else .ok ""

def namedModifier (terminal : Terminal) (palette : Palette) (wanted : Bool) (name : String) :
    Except Fault String :=
  if wanted then terminal.codes palette name else .ok ""

def named (terminal : Terminal) (palette : Palette) (look : Look) (reset : String)
    (front back : Option Rgb) : Except Fault String := do
  let colors ← namedColors terminal palette front back
  let bold ← namedModifier terminal palette look.bold "bold"
  let italic ← namedModifier terminal palette look.italic "italic"
  let underline ← namedModifier terminal palette look.underline "underline"
  return reset ++ colors ++ bold ++ italic ++ underline

/-- Asks for the codes of a look, and leaves its colours in the palette. -/
def ask (terminal : Terminal) (palette : Palette) (look : Look) :
    Except Fault String × Palette :=
  match terminal.codes palette "reset" with
  | .error fault => (.error fault, palette)
  | .ok reset =>
      match colorOf? look.color with
      | .error fault => (.error fault, palette)
      | .ok front =>
          let palette := palette.put frontName front
          match colorOf? look.background with
          | .error fault => (.error fault, palette)
          | .ok back =>
              let palette := palette.put backName back
              (look.named terminal palette reset front back, palette)

def asked (terminal : Terminal) : Palette → List Look → List (Except Fault String)
  | _, [] => []
  | palette, look :: later =>
      let answer := look.ask terminal palette
      answer.1 :: asked terminal answer.2 later

end Look

structure Terminal.ColorWord (terminal : Terminal) (word : String) : Prop where
  single : '_' ∉ word.toList
  unmodified : terminal.modifier word = none
  noBackground : word ≠ "on"

/-- Modifiers have codes of their own, and colours are asked for by one word, by one with a
background after it, or as a background alone. A word that is none of the palette is not known,
whatever comes after it. -/
structure Terminal.Documented (terminal : Terminal) (mode : ColorMode) : Prop where
  reset : terminal.modifier "reset" = some 0
  bold : terminal.modifier "bold" = some 1
  italic : terminal.modifier "italic" = some 3
  unmodified : ∀ word ∈ ["", "underline", Look.frontName, Look.backName],
    terminal.modifier word = none
  modifies {palette : Palette} {word : String} {parameter : Nat} :
    terminal.modifier word = some parameter →
      terminal.codes palette word = .ok (mode.code [parameter])
  front {palette : Palette} {word : String} {color : Rgb} :
    terminal.ColorWord word → palette word = some color →
      terminal.codes palette word = .ok (mode.foreground color)
  both {palette : Palette} {word other : String} {color otherColor : Rgb} :
    terminal.ColorWord word → palette word = some color →
      terminal.ColorWord other → palette other = some otherColor →
        terminal.codes palette (word ++ "_on_" ++ other) =
          .ok (mode.foreground color ++ mode.background otherColor)
  back {palette : Palette} {word : String} {color : Rgb} :
    terminal.ColorWord word → palette word = some color →
      terminal.codes palette ("on_" ++ word) = .ok (mode.background color)
  unknown {palette : Palette} {word later : String} :
    terminal.ColorWord word → palette word = none →
      terminal.codes palette word = .error (.unknownColor word) ∧
        terminal.codes palette (word ++ "_" ++ later) = .error (.unknownColor word)

/-- No colour is named by nothing, and none is called underlining. -/
structure Palette.Usual (palette : Palette) : Prop where
  nothing : palette "" = none
  underline : palette "underline" = none

namespace Palette

variable {palette : Palette} {name other : String} {color : Rgb}

theorem put_same : palette.put name (some color) name = some color := if_pos rfl

theorem put_other (different : other ≠ name) :
    palette.put name (some color) other = palette other := if_neg different

theorem Usual.put (usual : palette.Usual) (named : name ≠ "") (unlined : name ≠ "underline")
    (color : Option Rgb) : (palette.put name color).Usual := by
  cases color with
  | none => exact usual
  | some color =>
      exact ⟨(put_other named.symm).trans usual.nothing,
        (put_other unlined.symm).trans usual.underline⟩

end Palette

namespace Look

variable {terminal : Terminal} {mode : ColorMode} {palette : Palette}

theorem color_word (documented : terminal.Documented mode) {word : String}
    (listed : word ∈ ["", "underline", frontName, backName]) : terminal.ColorWord word := by
  have plain : ∀ word ∈ ["", "underline", frontName, backName],
      '_' ∉ word.toList ∧ word ≠ "on" := by decide
  exact ⟨(plain word listed).1, documented.unmodified word listed, (plain word listed).2⟩

theorem usual_put (usual : palette.Usual) (front back : Option Rgb) :
    ((palette.put frontName front).put backName back).Usual :=
  (usual.put (by decide) (by decide) front).put (by decide) (by decide) back

/-- A background alone is asked for by a name that begins with nothing, as if that were the name of
a colour. -/
theorem named_colors_eq (documented : terminal.Documented mode) (usual : palette.Usual)
    (front back : Option Rgb) :
    namedColors terminal ((palette.put frontName front).put backName back) front back =
      match front, back with
      | none, none => .ok ""
      | some front, none => .ok (mode.foreground front)
      | some front, some back => .ok (mode.foreground front ++ mode.background back)
      | none, some _ => .error (.unknownColor "") := by
  have frontWord := color_word documented (show frontName ∈ _ by simp)
  have backWord := color_word documented (show backName ∈ _ by simp)
  match front, back with
  | none, none => rfl
  | some front, none =>
      have kept : (palette.put frontName (some front)) frontName = some front := Palette.put_same
      exact documented.front frontWord kept
  | some front, some back =>
      have kept : ((palette.put frontName (some front)).put backName (some back)) frontName =
          some front := (Palette.put_other (by decide)).trans Palette.put_same
      exact documented.both frontWord kept backWord Palette.put_same
  | none, some back =>
      have nameless := color_word documented (show "" ∈ _ by simp)
      have missing := (usual_put usual none (some back)).nothing
      exact (@Terminal.Documented.unknown _ _ documented _ _ ("on_" ++ backName) nameless missing).2

theorem named_modifier_eq (documented : terminal.Documented mode) {name : String} {parameter : Nat}
    (modifies : terminal.modifier name = some parameter) (wanted : Bool) :
    namedModifier terminal palette wanted name =
      .ok (if wanted then mode.code [parameter] else "") := by
  cases wanted with
  | true => exact documented.modifies modifies
  | false => rfl

theorem named_underline_eq (documented : terminal.Documented mode) (usual : palette.Usual)
    (wanted : Bool) : namedModifier terminal palette wanted "underline" =
      if wanted then .error (.unknownColor "underline") else .ok "" := by
  have word := color_word documented (show "underline" ∈ _ by simp)
  cases wanted with
  | true => exact (@Terminal.Documented.unknown _ _ documented _ _ "" word usual.underline).1
  | false => rfl

/-- By way of the palette a look gets its codes, whatever looks used the palette before. -/
theorem ask_eq (documented : terminal.Documented mode) (usual : palette.Usual) (look : Look) :
    (look.ask terminal palette).1 = look.codes mode ∧ (look.ask terminal palette).2.Usual := by
  rw [ask, documented.modifies documented.reset, codes]
  cases colorOf? look.color with
  | error fault => exact ⟨rfl, usual⟩
  | ok front =>
      have frontUsual := @Palette.Usual.put _ frontName usual (by decide) (by decide) front
      cases colorOf? look.background with
      | error fault => exact ⟨rfl, frontUsual⟩
      | ok back =>
          refine ⟨?_, usual_put usual front back⟩
          simp only [named, named_colors_eq documented usual,
            named_modifier_eq documented documented.bold,
            named_modifier_eq documented documented.italic,
            named_underline_eq documented (usual_put usual front back)]
          cases front <;> cases back <;> cases look.underline <;>
            simp [bind, Except.bind, pure, Except.pure, ColorMode.reset]

theorem asked_eq (documented : terminal.Documented mode) (usual : palette.Usual)
    (looks : List Look) : asked terminal palette looks = looks.map (codes mode) := by
  induction looks generalizing palette with
  | nil => rfl
  | cons look later induction =>
      obtain ⟨answered, left⟩ := ask_eq documented usual look
      rw [asked, List.map_cons, answered, induction left]

/-- Tokens that begin one after another get their codes in a style, whatever is in the palette. -/
theorem asked_tokens (documented : terminal.Documented mode) (usual : palette.Usual)
    (style : Style) (tokens : List Token) :
    asked terminal palette (tokens.map style) = tokens.map (style.coloring mode).code := by
  rw [asked_eq documented usual, List.map_map]
  rfl

end Look

namespace Rgb

def HexDigit (character : Char) (value : Nat) : Prop :=
  "0123456789abcdef".toList[value]? = some character ∨
    "0123456789ABCDEF".toList[value]? = some character

/-- Six digits spell a colour, two of them each of its numbers. -/
inductive SpelledBy : Rgb → List Char → Prop where
  | six {first second third fourth fifth sixth : Char} {a b c d e f : Nat} :
      HexDigit first a → HexDigit second b → HexDigit third c → HexDigit fourth d →
        HexDigit fifth e → HexDigit sixth f →
          SpelledBy ⟨16 * a + b, 16 * c + d, 16 * e + f⟩
            [first, second, third, fourth, fifth, sixth]

theorem hex_value_of_digit {character : Char} {value : Nat} (digit : HexDigit character value) :
    hexValue? character = some value := by
  have lower : ∀ index : Fin 16, hexValue? "0123456789abcdef".toList[index] = some index.val := by
    decide
  have upper : ∀ index : Fin 16, hexValue? "0123456789ABCDEF".toList[index] = some index.val := by
    decide
  rcases digit with spelled | spelled
  · obtain ⟨inside, rfl⟩ := List.getElem?_eq_some_iff.mp spelled
    exact lower ⟨value, inside⟩
  · obtain ⟨inside, rfl⟩ := List.getElem?_eq_some_iff.mp spelled
    exact upper ⟨value, inside⟩

theorem of_hex_spelled {color : Rgb} {text : String} (spelled : color.SpelledBy text.toList) :
    ofHex text = .ok color := by
  generalize same : text.toList = characters at spelled
  cases spelled with | @six first _ _ _ _ _ a b c d e f isA isB isC isD isE isF =>
  have noHash : first ≠ '#' := by
    rintro rfl
    have digitless : hexValue? '#' = none := by decide
    cases digitless.symm.trans (hex_value_of_digit isA)
  rw [ofHex, same, List.dropWhile_cons_of_neg (by simp [noHash])]
  simp only [List.mapM_cons, List.mapM_nil, hex_value_of_digit isA, hex_value_of_digit isB,
    hex_value_of_digit isC, hex_value_of_digit isD, hex_value_of_digit isE,
    hex_value_of_digit isF]
  simp [hexNumber]

/-- A colour of a look, as it is written: none, an empty one, or six digits. -/
inductive Written : Option String → Option Rgb → Prop where
  | none : Written none none
  | empty : Written (some "") none
  | digits {text : String} {color : Rgb} :
      color.SpelledBy text.toList → Written (some text) (some color)

theorem color_of_written {text : Option String} {color : Option Rgb}
    (written : Written text color) : Look.colorOf? text = .ok color := by
  cases written with
  | none => rfl
  | empty => rfl
  | @digits text color spelled =>
      have nonempty : text ≠ "" := by
        rintro rfl
        cases spelled
      rw [Look.colorOf?, of_hex_spelled spelled]
      · rfl
      · exact nonempty

end Rgb

namespace Terminal

def words (name : String) : List String := (name.toList.splitOn '_').map String.ofList

theorem words_alone {word : String} (single : '_' ∉ word.toList) : words word = [word] := by
  rw [words, List.splitOn_eq_singleton single, List.map_singleton, String.ofList_toList]

theorem words_before {word : String} (single : '_' ∉ word.toList) (later : String) :
    words (word ++ "_" ++ later) = word :: words later := by
  have apart : (word ++ "_" ++ later).toList = word.toList ++ '_' :: later.toList := by simp
  have inside : ∀ character ∈ word.toList, (character == '_') = false := by
    intro character member
    rw [beq_eq_false_iff_ne]
    rintro rfl
    exact single member
  rw [words, words, apart, List.splitOn_eq_splitOnP, List.splitOn_eq_splitOnP,
    List.splitOnP_append_cons_of_forall_mem inside '_' (beq_self_eq_true '_'), List.map_cons,
    String.ofList_toList]

def modifiers : List (String × Nat) :=
  [("reset", 0), ("bold", 1), ("dimmed", 2), ("italic", 3), ("underlined", 4), ("inversed", 7),
    ("concealed", 8), ("struckthrough", 9)]

def colorCode (palette : Palette) (code : Rgb → String) (word : String) : Except Fault String :=
  match palette word with
  | none => .error (.unknownColor word)
  | some color => .ok (code color)

def backgroundCode (mode : ColorMode) (palette : Palette) : List String → Except Fault String
  | [] => .ok ""
  | word :: _ => colorCode palette mode.background word

/-- Modifiers come first, then a colour, and after one more word a background. -/
def wordCodes (mode : ColorMode) (palette : Palette) : List String → Except Fault String
  | [] => .ok ""
  | word :: later =>
      match modifiers.lookup word with
      | some parameter => (mode.code [parameter] ++ ·) <$> wordCodes mode palette later
      | none =>
          if word = "on" then backgroundCode mode palette later
          else do
            let front ← colorCode palette mode.foreground word
            let back ← backgroundCode mode palette later.tail
            return front ++ back

def wordwise (mode : ColorMode) : Terminal where
  modifier word := modifiers.lookup word
  codes palette name := wordCodes mode palette (words name)

theorem wordwise_codes (mode : ColorMode) (palette : Palette) (name : String) :
    (wordwise mode).codes palette name = wordCodes mode palette (words name) := rfl

theorem word_codes_of_color {mode : ColorMode} {palette : Palette} {word : String}
    (colorWord : (wordwise mode).ColorWord word) (later : List String) :
    wordCodes mode palette (word :: later) = (do
      let front ← colorCode palette mode.foreground word
      let back ← backgroundCode mode palette later.tail
      return front ++ back) := by
  have unmodified : modifiers.lookup word = none := colorWord.unmodified
  rw [wordCodes, unmodified]
  exact if_neg colorWord.noBackground

theorem single_of_modifier {word : String} {parameter : Nat}
    (modifier : modifiers.lookup word = some parameter) : '_' ∉ word.toList := by
  have single : ∀ entry ∈ modifiers, '_' ∉ entry.1.toList := by decide
  obtain ⟨front, back, split, -⟩ := List.lookup_eq_some_iff.mp modifier
  exact single (word, parameter) (split ▸ by simp)

theorem wordwise_documented (mode : ColorMode) : (wordwise mode).Documented mode where
  reset := rfl
  bold := rfl
  italic := rfl
  unmodified := by cases mode <;> decide
  modifies {palette word parameter} modifier := by
    have entry : modifiers.lookup word = some parameter := modifier
    rw [wordwise_codes, words_alone (single_of_modifier entry), wordCodes, entry, wordCodes]
    exact congrArg Except.ok String.append_empty
  front {palette word color} colorWord known := by
    rw [wordwise_codes, words_alone colorWord.single, word_codes_of_color colorWord, colorCode,
      known]
    exact congrArg Except.ok String.append_empty
  both {palette word other color otherColor} colorWord known otherWord otherKnown := by
    have name : word ++ "_on_" ++ other = word ++ "_" ++ ("on" ++ "_" ++ other) := by
      simp only [String.append_assoc]
      rfl
    rw [wordwise_codes, name, words_before colorWord.single, words_before (by decide),
      words_alone otherWord.single, word_codes_of_color colorWord, colorCode, known]
    simp only [List.tail_cons, backgroundCode, colorCode, otherKnown]
    rfl
  back {palette word color} colorWord known := by
    have name : "on_" ++ word = "on" ++ "_" ++ word := rfl
    rw [wordwise_codes, name, words_before (by decide), words_alone colorWord.single, wordCodes]
    simp only [backgroundCode, colorCode, known]
    rfl
  unknown {palette word later} colorWord missing := by
    have stuck (others : List String) :
        wordCodes mode palette (word :: others) = .error (.unknownColor word) := by
      rw [word_codes_of_color colorWord, colorCode, missing]
      rfl
    constructor
    · rw [wordwise_codes, words_alone colorWord.single, stuck]
    · rw [wordwise_codes, words_before colorWord.single, stuck]

end Terminal

variable {terminal : Terminal} {mode : ColorMode} {palette : Palette} {look : Look}
  {front back : Option Rgb}

/-- A look with colours of six digits has the codes of resetting, of its colours and of its flags,
unless it has a background alone or is underlined. The background alone would have its code by
another name, and for looks that are asked for later it makes no difference. -/
theorem codes_of_written_look (documented : terminal.Documented mode) (usual : palette.Usual)
    (frontWritten : Rgb.Written look.color front) (backWritten : Rgb.Written look.background back) :
    let answer := look.ask terminal palette
    answer.1 = look.codes mode ∧
      answer.1 =
        (if front = none ∧ back ≠ none then .error (.unknownColor "")
        else if look.underline then .error (.unknownColor "underline")
        else .ok (mode.reset ++ front.elim "" mode.foreground ++ back.elim "" mode.background ++
          (if look.bold then mode.code [1] else "") ++
          if look.italic then mode.code [3] else "")) ∧
      (∀ later, Look.asked terminal answer.2 later = later.map (Look.codes mode)) ∧
      ∀ color, back = some color →
        terminal.codes answer.2 ("on_" ++ Look.backName) = .ok (mode.background color) := by
  intro answer
  obtain ⟨codes, left⟩ := Look.ask_eq documented usual look
  refine ⟨codes, ?_, Look.asked_eq documented left, ?_⟩
  · rw [codes, Look.codes, Rgb.color_of_written frontWritten, Rgb.color_of_written backWritten]
    cases front <;> cases back <;> simp [bind, Except.bind, String.append_assoc]
  · rintro color rfl
    have backWord := Look.color_word documented (show Look.backName ∈ _ by simp)
    apply documented.back backWord
    simp only [answer, Look.ask, documented.modifies documented.reset,
      Rgb.color_of_written frontWritten, Rgb.color_of_written backWritten]
    exact Palette.put_same

/-- Both colours in digits of both spellings, by way of an empty palette. -/
theorem codes_of_bold_look :
    let terminal := Terminal.wordwise .trueColor
    let palette : Palette := fun _ => none
    let look : Look := ⟨some "1aF09c", some "00ff7E", true, true, false⟩
    terminal.Documented .trueColor ∧ palette.Usual ∧
      Rgb.Written look.color (some ⟨26, 240, 156⟩) ∧
      Rgb.Written look.background (some ⟨0, 255, 126⟩) ∧
      (look.ask terminal palette).1 =
        .ok "\x1b[0m\x1b[38;2;26;240;156m\x1b[48;2;0;255;126m\x1b[1m\x1b[3m" := by
  intro terminal palette look
  have documented : terminal.Documented .trueColor := Terminal.wordwise_documented .trueColor
  have usual : palette.Usual := ⟨rfl, rfl⟩
  have front : Rgb.Written look.color (some ⟨26, 240, 156⟩) :=
    .digits (@Rgb.SpelledBy.six '1' 'a' 'F' '0' '9' 'c' 1 10 15 0 9 12
      (.inl rfl) (.inl rfl) (.inr rfl) (.inl rfl) (.inl rfl) (.inl rfl))
  have back : Rgb.Written look.background (some ⟨0, 255, 126⟩) :=
    .digits (@Rgb.SpelledBy.six '0' '0' 'f' 'f' '7' 'E' 0 0 15 15 7 14
      (.inl rfl) (.inl rfl) (.inl rfl) (.inl rfl) (.inl rfl) (.inr rfl))
  obtain ⟨-, codes, -, -⟩ := codes_of_written_look documented usual front back
  rw [if_neg (by simp), if_neg (by simp [look])] at codes
  exact ⟨documented, usual, front, back, codes.trans (congrArg Except.ok (by decide +kernel))⟩

end KotlinLayout
