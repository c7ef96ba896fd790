import Lox.Command.Prompt
import Lox.Proofs.Session.Ended
import Mathlib.Tactic.SplitIfs

/-!
# Lox — the lines of an input

A prompt cuts its input into lines at the byte of the line end. In UTF-8 this byte is part of no
other character, so what is cut out are the lines of the text.

* **`eq_newline_of_mem_utf8EncodeChar`** — the byte of the line end.
* **`Prompt.linesFrom_join`** — the lines of a text that is put together from lines.
-/

namespace Lox

/-! ## Bytes -/

/-- The byte of the line end encodes nothing else. -/
theorem eq_newline_of_mem_utf8EncodeChar {c : Char} (h : (10 : UInt8) ∈ String.utf8EncodeChar c) :
    c = '\n' := by
  -- all bytes of a longer encoding are at least 128
  have hval : ∀ b ∈ String.utf8EncodeChar c, b.toNat = 10 → c.val.toNat = 10 := by
    unfold String.utf8EncodeChar
    dsimp only
    split_ifs
    all_goals
      simp only [List.mem_cons, List.not_mem_nil, or_false, forall_eq_or_imp, forall_eq,
        UInt8.toNat_ofNat']
      omega
  exact Char.ext (UInt32.toNat_inj.1 (hval 10 h rfl))

theorem toList_data_toUTF8 (s : String) :
    s.toUTF8.data.toList = s.toList.flatMap String.utf8EncodeChar := by
  rw [String.toUTF8_eq_toByteArray, ← String.utf8Encode_toList, List.utf8Encode,
    List.toList_data_toByteArray]

theorem toUTF8_append (s t : String) : (s ++ t).toUTF8 = s.toUTF8 ++ t.toUTF8 :=
  String.toByteArray_append

/-- A text is read back from its bytes. -/
theorem fromUTF8?_toUTF8 (s : String) : String.fromUTF8? s.toUTF8 = some s := by
  have h : s.toUTF8.IsValidUTF8 := s.isValidUTF8
  rw [String.fromUTF8?, dif_pos h]
  rfl

/-! ## Lines -/

namespace Prompt

theorem linesFrom_append_newline {bs : List UInt8} (h : 10 ∉ bs) (line : ByteArray)
    (rest : List UInt8) :
    linesFrom line (bs ++ 10 :: rest)
      = (line ++ bs.toByteArray).push 10 :: linesFrom ByteArray.empty rest := by
  induction bs generalizing line with
  | nil =>
    rw [List.nil_append, linesFrom, if_pos rfl, List.toByteArray_nil, ByteArray.append_empty]
  | cons b bs ih =>
    obtain ⟨hb, hbs⟩ := not_or.1 (mt List.mem_cons.2 h)
    have hpush : line.push b ++ bs.toByteArray = line ++ (b :: bs).toByteArray := by
      rw [← ByteArray.append_toByteArray_singleton, ByteArray.append_assoc,
        ← List.toByteArray_append]
      rfl
    rw [List.cons_append, linesFrom, if_neg fun heq => hb heq.symm, ih hbs, hpush]

/-- **A prompt is given the lines that its input is put together from.** -/
theorem linesFrom_join {lines : List String} (h : ∀ line ∈ lines, IsLine line) :
    linesFrom ByteArray.empty (String.join lines).toUTF8.data.toList = lines.map String.toUTF8 := by
  induction lines with
  | nil => rfl
  | cons line lines ih =>
    obtain ⟨⟨a, ha, rfl⟩, hlines⟩ := List.forall_mem_cons.1 h
    have hbytes : (10 : UInt8) ∉ a.toUTF8.data.toList := by
      rw [toList_data_toUTF8]
      intro hmem
      obtain ⟨c, hc, hbyte⟩ := List.mem_flatMap.1 hmem
      exact ha (eq_newline_of_mem_utf8EncodeChar hbyte ▸ hc)
    have hjoin : (String.join ((a ++ "\n") :: lines)).toUTF8.data.toList
        = a.toUTF8.data.toList ++ 10 :: (String.join lines).toUTF8.data.toList := by
      rw [String.join_cons, toUTF8_append, toUTF8_append, ByteArray.toList_data_append,
        ByteArray.toList_data_append, List.append_assoc]
      rfl
    have hline : a.toUTF8.data.toList.toByteArray.push 10 = (a ++ "\n").toUTF8 := by
      have hself : a.toUTF8.data.toList.toByteArray = a.toUTF8 :=
        ByteArray.ext (by rw [List.data_toByteArray])
      rw [hself, toUTF8_append, ← ByteArray.append_toByteArray_singleton]
      rfl
    rw [hjoin, linesFrom_append_newline hbytes, ih hlines, List.map_cons, ByteArray.empty_append,
      hline]

end Prompt

end Lox
