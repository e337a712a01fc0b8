import Clausal.Dimacs.Read
import Clausal.Proofs.Text

/-!
# Lines of a source of bytes

`Source.texts` says what the lines of a source are: its bytes are cut after each newline, and each
line is the text that its bytes encode in UTF-8, if they encode one. A text read as bytes has the
same lines as a text read as characters (`parse_eq_read`).
-/

namespace Clausal.Dimacs

open Clausal.Text

/-! ## Decoding -/

/-- The bytes of a text in UTF-8. -/
def utf8 (cs : List Char) : List UInt8 := cs.flatMap String.utf8EncodeChar

theorem fromUTF8?_eq_some_iff {bytes : ByteArray} {text : String} :
    String.fromUTF8? bytes = some text ↔ bytes = text.toByteArray := by
  unfold String.fromUTF8?
  split
  case isTrue hvalid =>
    rw [Option.some.injEq, ← String.toByteArray_inj]
    exact Iff.rfl
  case isFalse hinvalid =>
    refine iff_of_false (by simp) ?_
    rintro rfl
    exact hinvalid text.isValidUTF8

/-- A line of bytes is text exactly when it is the UTF-8 of that text. -/
theorem decodeLine_eq_some_iff {bytes : List UInt8} {cs : List Char} :
    decodeLine bytes = some cs ↔ bytes = utf8 cs := by
  have hbytes : (⟨bytes.toArray⟩ : ByteArray) = bytes.toByteArray := by
    rw [← List.data_toByteArray]
  have htext : (String.ofList cs).toByteArray = (utf8 cs).toByteArray := rfl
  rw [decodeLine, hbytes, Option.map_eq_some_iff, ← List.toByteArray_inj, ← htext]
  constructor
  · rintro ⟨text, hdecoded, rfl⟩
    rw [fromUTF8?_eq_some_iff.mp hdecoded, String.ofList_toList]
  · intro h
    exact ⟨String.ofList cs, fromUTF8?_eq_some_iff.mpr h, String.toList_ofList⟩

theorem utf8EncodeChar_newline : String.utf8EncodeChar '\n' = [10] := by decide

/-- No other character has the newline byte in its encoding: the bytes of a longer encoding are all
at least 128. -/
theorem eq_newline_of_mem {c : Char} {byte : UInt8} (hbyte : byte ∈ String.utf8EncodeChar c)
    (hend : isLineEnd byte = true) : c = '\n' := by
  have hten : byte.toNat = 10 := by
    rw [eq_of_beq hend]
    rfl
  rw [← Char.toNat_inj]
  change c.val.toNat = 10
  simp only [String.utf8EncodeChar] at hbyte
  repeat' split at hbyte
  all_goals simp only [List.mem_cons, List.not_mem_nil, or_false] at hbyte
  · rw [hbyte, UInt8.toNat_ofNat'] at hten
    omega
  · rcases hbyte with rfl | rfl <;> (rw [UInt8.toNat_ofNat'] at hten; omega)
  · rcases hbyte with rfl | rfl | rfl <;> (rw [UInt8.toNat_ofNat'] at hten; omega)
  · rcases hbyte with rfl | rfl | rfl | rfl <;> (rw [UInt8.toNat_ofNat'] at hten; omega)

/-! ## Lines -/

/-- The lines of a source as texts. The bytes are cut after each newline; what follows the last
newline is a line too if it is not empty, or if the source fails there. A line that is not text, or
that the source fails on, is `none`. -/
def Source.texts (s : Source) : List (Option (List Char)) :=
  let pieces := s.bytes.splitOn 10
  let rest := pieces.getLast?.filter (!·.isEmpty)
  pieces.dropLast.map (fun piece => decodeLine (piece ++ [10])) ++
    if s.fails then [none] else rest.toList.map decodeLine

theorem Source.lines_eq_texts (s : Source) : s.lines = s.texts := by
  have hcut : Text.lines isLineEnd s.bytes = _ := linesFrom_eq_splitOnPPrepend []
  have hpieces : ∀ piece ∈ s.bytes.splitOn 10, piece.any isLineEnd = false := by
    intro piece hpiece
    rw [List.any_eq_false]
    intro byte hbyte
    exact Bool.eq_false_iff.mp (eq_false_of_mem_splitOnPPrepend (by simp) hpiece byte hbyte)
  rw [List.splitOnPPrepend_nil_right, ← List.splitOn_eq_splitOnP] at hcut
  unfold Source.lines Source.texts
  simp only [hcut]
  split
  case isTrue hfails =>
    -- only the pieces in front have a line end, and so only they are read before the source fails
    have hended : ((s.bytes.splitOn 10).dropLast.map (· ++ [10])).filter
        (fun line => line.any isLineEnd) = (s.bytes.splitOn 10).dropLast.map (· ++ [10]) := by
      rw [List.filter_eq_self]
      intro line hline
      obtain ⟨piece, -, rfl⟩ := List.mem_map.mp hline
      simp [isLineEnd]
    have hrest : (((s.bytes.splitOn 10).getLast?.filter (!·.isEmpty)).toList).filter
        (fun line => line.any isLineEnd) = [] := by
      rw [List.filter_eq_nil_iff]
      intro piece hpiece
      rw [Option.mem_toList, Option.filter_eq_some_iff] at hpiece
      exact Bool.eq_false_iff.mp (hpieces piece (List.mem_of_getLast? hpiece.1))
    rw [List.filter_append, hended, hrest, List.append_nil, List.map_map]
    rfl
  case isFalse =>
    rw [List.map_append, List.map_map]
    rfl

theorem lines_utf8 (cs : List Char) :
    Text.lines isLineEnd (utf8 cs) = (Text.lines (· == '\n') cs).map utf8 := by
  refine linesFrom_flatMap ?_ ?_ []
  · intro c hc
    exact ⟨10, by rw [eq_of_beq hc, utf8EncodeChar_newline], rfl⟩
  · intro c hc
    refine ⟨String.utf8EncodeChar_ne_nil, fun byte hbyte => ?_⟩
    rw [Bool.eq_false_iff]
    intro hend
    simp [eq_newline_of_mem hbyte hend] at hc

/-- Reading a text is reading its bytes. -/
theorem parse_eq_read (text : String) : parse text = read ⟨text.toByteArray.data.toList, false⟩ := by
  have hbytes : text.toByteArray.data.toList = utf8 text.toList := by
    have htext : text.toByteArray = (utf8 text.toList).toByteArray := by
      conv => lhs; rw [← @String.ofList_toList text]
      rfl
    rw [htext, List.toList_data_toByteArray]
  have hlines : Source.lines ⟨utf8 text.toList, false⟩ =
      (Text.lines (· == '\n') text.toList).map some := by
    simp only [Source.lines, Bool.false_eq_true, ↓reduceIte, lines_utf8, List.map_map]
    refine List.map_congr_left fun line _ => ?_
    exact decodeLine_eq_some_iff.mpr rfl
  rw [parse, parseChars, read, hbytes, hlines]

end Clausal.Dimacs
