import SatSearch.Dimacs.Reader
import Mathlib.Data.List.Basic

/-!
# The lines of a text in UTF-8

The reader of DIMACS cuts bytes into lines before it decodes them. For bytes that encode a text this
comes to the same as cutting the text itself, because the bytes of a line feed and of a carriage
return are not part of the encoding of any other character.
-/

namespace SatSearch

namespace Text

def utf8 (cs : List Char) : List UInt8 := cs.flatMap String.utf8EncodeChar

theorem utf8_cons (c : Char) (cs : List Char) :
    utf8 (c :: cs) = String.utf8EncodeChar c ++ utf8 cs := List.flatMap_cons

theorem utf8_append (cs ds : List Char) : utf8 (cs ++ ds) = utf8 cs ++ utf8 ds :=
  List.flatMap_append

theorem utf8_eq_nil_iff {cs : List Char} : utf8 cs = [] ↔ cs = [] := by
  cases cs with
  | nil => simp [utf8]
  | cons c cs => simp [utf8_cons, String.utf8EncodeChar_ne_nil]

def asciiByte (a : Char) : UInt8 := UInt8.ofNat a.toNat

theorem utf8EncodeChar_ascii {a : Char} (ha : a.toNat < 128) :
    String.utf8EncodeChar a = [asciiByte a] := by
  have hle : a.val.toNat ≤ 127 := Nat.le_of_lt_succ ha
  rw [String.utf8EncodeChar]
  exact if_pos hle

/-- A byte below 128 is the whole encoding of its character. -/
theorem toNat_eq_of_mem_utf8EncodeChar {b : UInt8} {c : Char}
    (h : b ∈ String.utf8EncodeChar c) (hb : b.toNat < 128) : c.toNat = b.toNat := by
  have hmod (n : Nat) : (UInt8.ofNat n).toNat = n % 256 := UInt8.toNat_ofNat'
  revert h
  fun_cases String.utf8EncodeChar c with
  | case1 v hle =>
    intro h
    rw [List.mem_singleton.1 h, hmod]
    exact (Nat.mod_eq_of_lt (Nat.lt_of_le_of_lt hle (by decide))).symm
  | case2 v hle hle' =>
    simp only [List.mem_cons, List.not_mem_nil, or_false]
    rintro (rfl | rfl) <;> rw [hmod] at hb <;> omega
  | case3 v =>
    simp only [List.mem_cons, List.not_mem_nil, or_false]
    rintro (rfl | rfl | rfl) <;> rw [hmod] at hb <;> omega
  | case4 v =>
    simp only [List.mem_cons, List.not_mem_nil, or_false]
    rintro (rfl | rfl | rfl | rfl) <;> rw [hmod] at hb <;> omega

theorem mem_utf8EncodeChar_iff {a c : Char} (ha : a.toNat < 128) :
    asciiByte a ∈ String.utf8EncodeChar c ↔ c = a := by
  have hbyte : (asciiByte a).toNat = a.toNat := by
    rw [asciiByte, UInt8.toNat_ofNat']
    exact Nat.mod_eq_of_lt (by omega)
  constructor
  · intro h
    have hc := toNat_eq_of_mem_utf8EncodeChar h (hbyte ▸ ha)
    exact Char.toNat_inj.1 (hc.trans hbyte)
  · rintro rfl
    simp [utf8EncodeChar_ascii ha]

theorem splitOn_append_of_not_mem {α : Type} [BEq α] [LawfulBEq α] {a : α} {xs : List α}
    (h : a ∉ xs) (ys : List α) :
    (xs ++ ys).splitOn a = (ys.splitOn a).modifyHead (xs ++ ·) := by
  induction xs with
  | nil =>
    obtain ⟨piece, pieces, hy⟩ := List.exists_cons_of_ne_nil (List.splitOn_ne_nil a ys)
    simp [hy]
  | cons x xs ih =>
    have hx : (x == a) = false := by simpa using fun he : x = a => h (he ▸ List.mem_cons_self)
    rw [List.cons_append, List.splitOn_cons_eq_if_modifyHead, hx, if_neg Bool.false_ne_true,
      ih fun hmem => h (List.mem_cons_of_mem _ hmem), List.modifyHead_modifyHead]
    rfl

/-- The encoding of a text is cut at an ASCII character where the text is. -/
theorem splitOn_utf8 {a : Char} (ha : a.toNat < 128) (cs : List Char) :
    (utf8 cs).splitOn (asciiByte a) = (cs.splitOn a).map utf8 := by
  induction cs with
  | nil => rfl
  | cons c cs ih =>
    rw [utf8_cons, List.splitOn_cons_eq_if_modifyHead]
    by_cases hc : c = a
    · subst hc
      rw [utf8EncodeChar_ascii ha, List.singleton_append, List.splitOn_cons_eq_if_modifyHead, ih]
      simp only [beq_self_eq_true, if_true, List.map_cons]
      rfl
    · have hmem : asciiByte a ∉ String.utf8EncodeChar c := mt (mem_utf8EncodeChar_iff ha).1 hc
      obtain ⟨piece, pieces, hcs⟩ := List.exists_cons_of_ne_nil (List.splitOn_ne_nil a cs)
      rw [splitOn_append_of_not_mem hmem, ih, hcs, if_neg (by simpa using hc)]
      simp [utf8_cons]

def dropReturn (line : List Char) : List Char :=
  if line.getLast? = some '\r' then line.dropLast else line

theorem dropReturn_of_not_mem {line : List Char} (h : '\r' ∉ line) : dropReturn line = line :=
  if_neg fun hlast => h (List.mem_of_getLast? hlast)

theorem dropReturn_cons_cons {d : Char} (hd : d ≠ '\r') (c : Char) (rest : List Char) :
    ∃ rest', dropReturn (c :: d :: rest) = c :: d :: rest' := by
  cases rest with
  | nil => exact ⟨[], if_neg (by simpa using hd)⟩
  | cons x rest =>
    rw [dropReturn]
    split
    · exact ⟨(x :: rest).dropLast, rfl⟩
    · exact ⟨x :: rest, rfl⟩

theorem dropReturn_utf8 (line : List Char) :
    Dimacs.dropReturn (utf8 line) = utf8 (dropReturn line) := by
  rcases List.eq_nil_or_concat' line with rfl | ⟨cs, c, rfl⟩
  · rfl
  · by_cases hc : c = '\r'
    · subst hc
      simp [Dimacs.dropReturn, dropReturn, utf8, utf8EncodeChar_ascii, asciiByte]
    · have hbytes : utf8 (cs ++ [c]) = utf8 cs ++ String.utf8EncodeChar c := by
        rw [utf8_append, utf8_cons, utf8_eq_nil_iff.2 rfl, List.append_nil]
      have hlast : (utf8 (cs ++ [c])).getLast? ≠ some 13 := by
        rw [hbytes, List.getLast?_append_of_ne_nil _ String.utf8EncodeChar_ne_nil]
        intro h
        exact hc ((mem_utf8EncodeChar_iff (a := '\r') (by decide)).1 (List.mem_of_getLast? h))
      rw [Dimacs.dropReturn, if_neg hlast, dropReturn, if_neg (by simpa using hc)]

def endLines : List (List Char) → List (List Char)
  | [] => []
  | [last] => if last.isEmpty then [] else [last]
  | line :: rest => dropReturn line :: endLines rest

theorem endLines_map_utf8 (pieces : List (List Char)) :
    Dimacs.endLines (pieces.map utf8) = (endLines pieces).map utf8 := by
  fun_induction endLines pieces with
  | case1 => rfl
  | case2 last h =>
    rw [List.isEmpty_iff] at h
    subst h
    rfl
  | case3 last h =>
    have hne : utf8 last ≠ [] := mt utf8_eq_nil_iff.1 (by simpa using h)
    simp [Dimacs.endLines, hne]
  | case4 line rest hrest ih =>
    obtain ⟨next, later, rfl⟩ := List.exists_cons_of_ne_nil (l := rest) fun he => hrest he
    rw [List.map_cons, List.map_cons, Dimacs.endLines, dropReturn_utf8, ← List.map_cons, ih]
    · rfl
    · simp

/-- The lines of a text: the pieces that end with a line feed, and what stands behind the last one
unless it is empty. -/
def lines (cs : List Char) : List (List Char) := endLines (cs.splitOn '\n')

theorem lines_utf8 (cs : List Char) : Dimacs.lines (utf8 cs) = (lines cs).map utf8 := by
  rw [Dimacs.lines, lines, ← endLines_map_utf8, ← splitOn_utf8 (by decide)]
  rfl

theorem lines_append_cons {line : List Char} (h : '\n' ∉ line) (rest : List Char) :
    lines (line ++ '\n' :: rest) = dropReturn line :: lines rest := by
  obtain ⟨next, later, hrest⟩ := List.exists_cons_of_ne_nil (List.splitOn_ne_nil '\n' rest)
  rw [lines, List.splitOn_append_cons_self_of_not_mem h, lines, hrest]
  rfl

theorem lines_flatMap {ls : List (List Char)} (h : ∀ line ∈ ls, '\n' ∉ line) :
    lines (ls.flatMap (· ++ ['\n'])) = ls.map dropReturn := by
  induction ls with
  | nil => rfl
  | cons line ls ih =>
    obtain ⟨hline, hls⟩ := List.forall_mem_cons.1 h
    rw [List.flatMap_cons, List.append_assoc, List.singleton_append, lines_append_cons hline,
      ih hls, List.map_cons]

theorem toList_loop_eq (bytes : ByteArray) (i : Nat) (acc : List UInt8) :
    ByteArray.toList.loop bytes i acc = acc.reverse ++ bytes.data.toList.drop i := by
  fun_induction ByteArray.toList.loop bytes i acc with
  | case1 i acc h ih =>
    have hi : i < bytes.data.toList.length := by simpa using h
    rw [ih, List.drop_eq_getElem_cons hi]
    simp [ByteArray.get!, h]
  | case2 i acc h =>
    rw [List.drop_eq_nil_of_le (by simpa using Nat.le_of_not_lt h), List.append_nil]

theorem toList_toUTF8 (s : String) : s.toUTF8.toList = utf8 s.toList := by
  rw [String.toUTF8_eq_toByteArray, ByteArray.toList, toList_loop_eq, ← String.utf8Encode_toList]
  simp [List.utf8Encode, utf8]

end Text

theorem Dimacs.decode_utf8 (cs : List Char) : decode (Text.utf8 cs) = .ok cs := by
  have hbytes : (⟨(Text.utf8 cs).toArray⟩ : ByteArray) = cs.utf8Encode := by
    apply ByteArray.ext
    apply Array.toList_inj.1
    simp [List.utf8Encode, Text.utf8]
  have hvalid : cs.utf8Encode.IsValidUTF8 := ⟨cs, rfl⟩
  have htext : String.fromUTF8 cs.utf8Encode hvalid = String.ofList cs := by
    rw [← String.toByteArray_inj, String.toByteArray_ofList]
    rfl
  rw [decode, hbytes, String.fromUTF8?, dif_pos hvalid, htext]
  exact congrArg Except.ok String.toList_ofList

end SatSearch
