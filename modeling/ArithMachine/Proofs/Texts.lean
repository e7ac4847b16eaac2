import ArithMachine.Program.Reading
import ArithMachine.Proofs.Notation

/-!
# The characters of texts

This module says which characters the texts of values, instructions and bytes
consist of, as far as it takes to tell the columns and the rows of a listing
apart: values are written with digits and a few other characters, each byte of a run
is followed by a blank when more text comes behind it, and no text of a value or an
instruction goes over the end of a line.

`Hex.Writes` says what it is for a text to show bytes: how the text is laid out, and
that the bytes can be read from it.  It speaks of the reader and not of `Hex.spaced`,
which turns out to be the one text that shows them.
-/

namespace ArithMachine

section Texts

namespace Value

/-- The characters that texts of values are written with. -/
def isNotation (c : Char) : Bool :=
  c.isDigit || ['.', 'e', '-', 'i', 'n', 'f', 'N', 'a'].contains c

theorem all_characters (v : Value) :
    v.characters.all isNotation = true := by
  have hsize : (magnitudeText v.magnitude).all isNotation = true := by
    unfold magnitudeText
    split
    · rfl
    · split
      · rfl
      · rw [List.all_eq_true]
        intro c hmem
        rcases Decimal.of_mem_text hmem with rfl | rfl | rfl | hdigit
        · rfl
        · rfl
        · rfl
        · rw [isNotation, hdigit, Bool.true_or]
  unfold characters
  split
  · rfl
  · rw [List.all_append, hsize, Bool.and_true]
    cases v.negative with
    | true | false => rfl

theorem not_mem_characters
    (v : Value) {c : Char} (h : isNotation c = false) :
    c ∉ v.characters := by
  intro hmem
  have hc := List.all_eq_true.mp v.all_characters c hmem
  rw [h] at hc
  cases hc

end Value

section Bytes

theorem Hex.mem_digits_iff {c : Char} :
    c ∈ "0123456789abcdef".toList ↔ ∃ n < 16, n.digitChar = c := by
  have hdigits :
      "0123456789abcdef".toList = (List.range 16).map Nat.digitChar := by
    decide
  simp only [hdigits, List.mem_map, List.mem_range]

/-- Bytes are written in lowercase digits. -/
theorem Hex.mem_digits_of_mem_byte
    {b : UInt8} {c : Char}
    (h : c ∈ Hex.byte b) :
    c ∈ "0123456789abcdef".toList := by
  have hb : b.toNat < 256 := b.toNat_lt
  simp only [Hex.byte, List.mem_cons, List.not_mem_nil, or_false] at h
  rcases h with rfl | rfl
  · exact Hex.mem_digits_iff.mpr ⟨_, by omega, rfl⟩
  · exact Hex.mem_digits_iff.mpr ⟨_, by omega, rfl⟩

/-- In front of more text, each byte of a run has a blank behind it. -/
theorem Hex.spaced_append
    (b : UInt8) (bytes : List UInt8) (text : List Char) :
    Hex.spaced (b :: bytes) ++ ' ' :: text =
      (b :: bytes).flatMap (fun b => Hex.byte b ++ [' ']) ++ text := by
  induction bytes generalizing b with
  | nil => rfl
  | cons c bytes ih =>
      have hspaced :
          Hex.spaced (b :: c :: bytes) =
            Hex.byte b ++ ' ' :: Hex.spaced (c :: bytes) := rfl
      rw [hspaced, List.append_assoc, List.cons_append, ih,
        List.flatMap_cons, List.append_assoc, List.append_assoc]
      rfl

theorem Hex.digit?_digitChar :
    ∀ n < 16, Hex.digit? n.digitChar = some n := by
  decide

/-- Bytes are read until the text goes on in another way. -/
theorem Hex.leadingBytes_append
    (bytes : List UInt8) {text : List Char}
    (h : Hex.leadingBytes text = []) :
    Hex.leadingBytes
        (bytes.flatMap (fun b => Hex.byte b ++ [' ']) ++ text) =
      bytes := by
  induction bytes with
  | nil => exact h
  | cons b bytes ih =>
      have hb : b.toNat < 256 := b.toNat_lt
      have hhigh := Hex.digit?_digitChar (b.toNat / 16) (by omega)
      have hlow := Hex.digit?_digitChar (b.toNat % 16) (by omega)
      have hvalue : UInt8.ofNat (16 * (b.toNat / 16) + b.toNat % 16) = b := by
        rw [Nat.div_add_mod, UInt8.ofNat_toNat]
      rw [List.flatMap_cons, List.append_assoc, List.append_assoc,
        Hex.byte, List.cons_append, List.cons_append, List.nil_append,
        List.singleton_append, Hex.leadingBytes]
      simp only [if_true, hhigh, hlow, hvalue, ih]

/-- A run of bytes is read back, the last one by the blank that is put behind it. -/
theorem Hex.leadingBytes_spaced (bytes : List UInt8) :
    Hex.leadingBytes (Hex.spaced bytes ++ [' ']) = bytes := by
  cases bytes with
  | nil => rfl
  | cons b bytes =>
      rw [Hex.spaced_append]
      exact Hex.leadingBytes_append _ rfl

/--
A text shows bytes in hexadecimal.

The text consists of pairs of lowercase digits, with one blank between each two, and
the bytes are what is read from it when a blank is put behind the last pair.
-/
structure Hex.Writes (text : List Char) (bytes : List UInt8) : Prop where
  layout :
    ∃ pairs : List (List Char),
      text = [' '].intercalate pairs ∧
      ∀ pair ∈ pairs,
        pair.length = 2 ∧ ∀ c ∈ pair, c ∈ "0123456789abcdef".toList
  read : Hex.leadingBytes (text ++ [' ']) = bytes

theorem Hex.writes_spaced (bytes : List UInt8) :
    Hex.Writes (Hex.spaced bytes) bytes where
  layout := by
    refine ⟨bytes.map Hex.byte, rfl, ?_⟩
    intro pair hmem
    obtain ⟨b, -, rfl⟩ := List.mem_map.mp hmem
    exact ⟨Hex.length_byte b, fun _ => Hex.mem_digits_of_mem_byte⟩
  read := Hex.leadingBytes_spaced bytes

/-- There is a byte for each pair of lowercase digits. -/
theorem Hex.exists_byte
    {pair : List Char}
    (hlength : pair.length = 2)
    (hdigits : ∀ c ∈ pair, c ∈ "0123456789abcdef".toList) :
    ∃ b, Hex.byte b = pair := by
  obtain ⟨high, low, rfl⟩ := List.length_eq_two.mp hlength
  obtain ⟨h, hh, rfl⟩ := Hex.mem_digits_iff.mp (hdigits high (by simp))
  obtain ⟨l, hl, rfl⟩ := Hex.mem_digits_iff.mp (hdigits low (by simp))
  have hvalue : (UInt8.ofNat (16 * h + l)).toNat = 16 * h + l :=
    UInt8.toNat_ofNat_of_lt (show 16 * h + l < 256 by omega)
  have hdiv : (16 * h + l) / 16 = h := by omega
  have hmod : (16 * h + l) % 16 = l := by omega
  exact ⟨UInt8.ofNat (16 * h + l), by rw [Hex.byte, hvalue, hdiv, hmod]⟩

/-- Only one text shows given bytes. -/
theorem Hex.Writes.eq_spaced
    {text : List Char} {bytes : List UInt8}
    (h : Hex.Writes text bytes) :
    text = Hex.spaced bytes := by
  obtain ⟨⟨pairs, rfl, hpairs⟩, hread⟩ := h
  have hbytes : pairs ∈ Set.range (List.map Hex.byte) := by
    rw [Set.range_list_map]
    intro pair hmem
    obtain ⟨hlength, hdigits⟩ := hpairs pair hmem
    exact Hex.exists_byte hlength hdigits
  obtain ⟨shown, rfl⟩ := hbytes
  rw [← hread]
  exact congrArg Hex.spaced (Hex.leadingBytes_spaced shown).symm

end Bytes

section Lines

theorem Hex.newline_not_mem_byte (b : UInt8) :
    '\n' ∉ Hex.byte b := by
  intro hmem
  exact absurd (Hex.mem_digits_of_mem_byte hmem) (by decide)

theorem Hex.newline_not_mem_spaced (bytes : List UInt8) :
    '\n' ∉ Hex.spaced bytes := by
  cases bytes with
  | nil => exact List.not_mem_nil
  | cons b bytes =>
      have hblank : '\n' ∉ Hex.spaced (b :: bytes) ++ ' ' :: [] := by
        rw [Hex.spaced_append]
        simp [Hex.newline_not_mem_byte]
      intro hmem
      exact hblank (List.mem_append_left _ hmem)

theorem Instruction.characters_immediate (value : Value) :
    (Instruction.immediate value).characters =
      "Immediate ".toList ++ value.characters := rfl

theorem Instruction.newline_not_mem_characters (i : Instruction) :
    '\n' ∉ i.characters := by
  have hname : '\n' ∉ "Immediate ".toList := by simp
  cases i with
  | immediate value =>
      rw [characters_immediate, List.mem_append, not_or]
      exact ⟨hname, value.not_mem_characters rfl⟩
  | ret | negate => decide
  | binary op =>
      cases op with
      | add | subtract | multiply | divide => decide

end Lines

end Texts

end ArithMachine
