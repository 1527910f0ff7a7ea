import DurableCache.Http.Percent
import DurableCache.Http.Server
import DurableCache.Proofs.Json.Spellings
import Mathlib.Data.List.TakeWhile

/-!
# Percent encoded segments

A key can stand in a segment of a path in many ways: every byte of it as an escape with digits of
either case, and most characters as they are. All of these are decoded as the key
(`decode?_of_encodes`), and a path that ends in such a segment leads to the key.
-/

namespace DurableCache.Http

open Text (IsHexDigit)

/-! ### Bytes -/

/-- The bytes from an index on are listed in their order. -/
theorem toList_loop (bytes : ByteArray) (i : Nat) (front : List UInt8) :
    ByteArray.toList.loop bytes i front = front.reverse ++ bytes.data.toList.drop i := by
  fun_induction ByteArray.toList.loop bytes i front with
  | case1 i front h ih =>
    have hlist : i < bytes.data.toList.length := by simpa using h
    have hget : bytes.get! i = bytes.data.toList[i] := by
      rw [ByteArray.get!, getElem!_pos bytes.data i (by simpa using h), Array.getElem_toList]
    rw [ih, List.drop_eq_getElem_cons hlist, hget]
    simp
  | case2 i front h =>
    have hdrop : bytes.data.toList.drop i = [] := List.drop_eq_nil_of_le (by simpa using h)
    rw [hdrop, List.append_nil]

/-- All bytes are listed in their order. -/
theorem toList_eq (bytes : ByteArray) : bytes.toList = bytes.data.toList := by
  rw [ByteArray.toList, toList_loop]
  simp

/-- The bytes of a text. -/
def utf8 (text : List Char) : List UInt8 := text.flatMap String.utf8EncodeChar

theorem utf8_cons (c : Char) (text : List Char) :
    utf8 (c :: text) = String.utf8EncodeChar c ++ utf8 text := List.flatMap_cons

theorem utf8_append (text more : List Char) : utf8 (text ++ more) = utf8 text ++ utf8 more :=
  List.flatMap_append

/-- The bytes of a text are listed in their order. -/
theorem toList_toUTF8 (text : List Char) : (String.ofList text).toUTF8.toList = utf8 text := by
  rw [toList_eq]
  simp [utf8, List.utf8Encode]

/-- The bytes of a text as an array. -/
theorem toByteArray_utf8 (s : String) : (utf8 s.toList).toByteArray = s.toByteArray := by
  rw [← String.utf8Encode_toList]
  rfl

/-- A text is read from its bytes. -/
theorem fromUTF8?_utf8 (s : String) : String.fromUTF8? (utf8 s.toList).toByteArray = some s := by
  rw [toByteArray_utf8, String.fromUTF8?, dif_pos s.isValidUTF8]
  rfl

/-- The number of bytes of a text. -/
theorem utf8ByteSize_eq (s : String) : s.utf8ByteSize = (utf8 s.toList).length := by
  rw [← String.size_toByteArray, ← toByteArray_utf8, List.size_toByteArray]

/-- A character is one byte, or all its bytes are greater than those of the first characters. -/
theorem toNat_of_mem_utf8EncodeChar {c : Char} {byte : UInt8}
    (h : byte ∈ String.utf8EncodeChar c) : byte.toNat = c.toNat ∨ 0x80 ≤ byte.toNat := by
  have hgreat {n : Nat} (hleast : 0x80 ≤ n) (hmost : n < 0x100) : 0x80 ≤ (UInt8.ofNat n).toNat := by
    rw [UInt8.toNat_ofNat']
    omega
  have hval : c.val.toNat = c.toNat := rfl
  unfold String.utf8EncodeChar at h
  simp only [hval] at h
  split at h
  · rename_i hsmall
    rw [List.mem_singleton.mp h, UInt8.toNat_ofNat']
    omega
  · right
    split at h
    · simp only [List.mem_cons, List.not_mem_nil, or_false] at h
      rcases h with rfl | rfl <;> exact hgreat (by omega) (by omega)
    · split at h
      · simp only [List.mem_cons, List.not_mem_nil, or_false] at h
        rcases h with rfl | rfl | rfl <;> exact hgreat (by omega) (by omega)
      · simp only [List.mem_cons, List.not_mem_nil, or_false] at h
        rcases h with rfl | rfl | rfl | rfl <;> exact hgreat (by omega) (by omega)

/-! ### Percent encodings -/

namespace Percent

/-- A percent encoding of some bytes, in a segment of a path. -/
inductive Encodes : List Char → List UInt8 → Prop
  | nil : Encodes [] []
  | plain {c : Char} {segment : List Char} {bytes : List UInt8} (hpath : isPathChar c = true)
      (hslash : c ≠ '/') (hpercent : c ≠ '%') (hrest : Encodes segment bytes) :
      Encodes (c :: segment) (String.utf8EncodeChar c ++ bytes)
  | escape {high low : Char} {byte : UInt8} {segment : List Char} {bytes : List UInt8}
      (hhigh : IsHexDigit high (byte.toNat / 16)) (hlow : IsHexDigit low (byte.toNat % 16))
      (hrest : Encodes segment bytes) : Encodes ('%' :: high :: low :: segment) (byte :: bytes)

variable {segment : List Char} {bytes rest : List UInt8} {byte : UInt8} {key : String}

/-- Without a percent sign a byte stands for itself. -/
theorem decodeBytes_cons (h : byte ≠ 0x25) (rest : List UInt8) :
    decodeBytes (byte :: rest) = byte :: decodeBytes rest := by
  match rest with
  | [] => rfl
  | [_] => rfl
  | high :: low :: rest => simp [decodeBytes, escaped?, h]

/-- The bytes of a character other than the percent sign stand for themselves. -/
theorem decodeBytes_utf8EncodeChar {c : Char} (h : c ≠ '%') (rest : List UInt8) :
    decodeBytes (String.utf8EncodeChar c ++ rest) =
      String.utf8EncodeChar c ++ decodeBytes rest := by
  have hbytes (byte : UInt8) (hmem : byte ∈ String.utf8EncodeChar c) : byte ≠ 0x25 := by
    rintro rfl
    rcases toNat_of_mem_utf8EncodeChar hmem with hsame | hgreat
    · exact h (Char.toNat_inj.mp hsame.symm)
    · exact absurd hgreat (by decide)
  revert hbytes
  induction String.utf8EncodeChar c with
  | nil => exact fun _ => rfl
  | cons byte more ih =>
    intro hbytes
    rw [List.cons_append, decodeBytes_cons (hbytes byte List.mem_cons_self),
      ih fun other hother => hbytes other (List.mem_cons_of_mem byte hother), List.cons_append]

/-- A digit is one byte, which has the value that the digit stands for. -/
theorem digit?_of_isHexDigit {digit : Char} {n : Nat} (h : IsHexDigit digit n) :
    ∃ byte, String.utf8EncodeChar digit = [byte] ∧ digit? byte = some (UInt8.ofNat n) := by
  have hbyte : String.utf8EncodeChar digit = [UInt8.ofNat digit.toNat] ∧
      digit? (UInt8.ofNat digit.toNat) = some (UInt8.ofNat n) := h.of_forall (by decide)
  exact ⟨_, hbyte⟩

/-- A percent sign with two digits stands for their byte. -/
theorem decodeBytes_escape {high low : Char} (hhigh : IsHexDigit high (byte.toNat / 16))
    (hlow : IsHexDigit low (byte.toNat % 16)) (rest : List UInt8) :
    decodeBytes (utf8 ['%', high, low] ++ rest) = byte :: decodeBytes rest := by
  obtain ⟨first, hfirst, hfirstValue⟩ := digit?_of_isHexDigit hhigh
  obtain ⟨second, hsecond, hsecondValue⟩ := digit?_of_isHexDigit hlow
  have hsign : String.utf8EncodeChar '%' = [0x25] := by decide
  have hbytes : utf8 ['%', high, low] = [0x25, first, second] := by
    simp [utf8, hsign, hfirst, hsecond]
  have hvalue : UInt8.ofNat (byte.toNat / 16) * 16 + UInt8.ofNat (byte.toNat % 16) = byte := by
    have hlt := byte.toNat_lt
    rw [← UInt8.toNat_inj]
    simp
    omega
  rw [hbytes]
  simp only [List.cons_append, List.nil_append, decodeBytes, escaped?, hfirstValue, hsecondValue,
    if_true, hvalue]

/-- The bytes of an encoding stand for the bytes that it encodes. -/
theorem decodeBytes_of_encodes (h : Encodes segment bytes) :
    decodeBytes (utf8 segment) = bytes := by
  induction h with
  | nil => rfl
  | @plain c segment bytes _ _ hpercent _ ih =>
    rw [utf8_cons, decodeBytes_utf8EncodeChar hpercent, ih]
  | @escape high low byte segment bytes hhigh hlow _ ih =>
    have hsplit : '%' :: high :: low :: segment = ['%', high, low] ++ segment := rfl
    rw [hsplit, utf8_append, decodeBytes_escape hhigh hlow, ih]

/-- An encoding of a key is decoded as the key. -/
theorem decode?_of_encodes (h : Encodes segment (utf8 key.toList)) :
    decode? (String.ofList segment) = some key := by
  rw [decode?, toList_toUTF8, decodeBytes_of_encodes h]
  exact fromUTF8?_utf8 key

/-- Every character of an encoding may stand in a path, and none is a slash. -/
theorem isPathChar_of_encodes (h : Encodes segment bytes) :
    ∀ c ∈ segment, isPathChar c = true ∧ c ≠ '/' := by
  have hdigit {digit : Char} {n : Nat} (h : IsHexDigit digit n) :
      isPathChar digit = true ∧ digit ≠ '/' := h.of_forall (by decide)
  induction h with
  | nil => exact fun c hc => absurd hc List.not_mem_nil
  | plain hpath hslash _ _ ih => exact List.forall_mem_cons.mpr ⟨⟨hpath, hslash⟩, ih⟩
  | escape hhigh hlow _ ih =>
    refine List.forall_mem_cons.mpr ⟨by decide, ?_⟩
    exact List.forall_mem_cons.mpr ⟨hdigit hhigh, List.forall_mem_cons.mpr ⟨hdigit hlow, ih⟩⟩

/-- An encoding takes at most three bytes for one. -/
theorem length_utf8_le (h : Encodes segment bytes) : (utf8 segment).length ≤ 3 * bytes.length := by
  have hdigit {digit : Char} {n : Nat} (h : IsHexDigit digit n) :
      (String.utf8EncodeChar digit).length = 1 := by
    obtain ⟨byte, hbyte, -⟩ := digit?_of_isHexDigit h
    rw [hbyte, List.length_singleton]
  induction h with
  | nil => exact Nat.le_refl 0
  | plain _ _ _ _ ih =>
    rw [utf8_cons, List.length_append, List.length_append]
    omega
  | escape hhigh hlow _ ih =>
    have hsign : (String.utf8EncodeChar '%').length = 1 := by decide
    rw [utf8_cons, utf8_cons, utf8_cons, List.length_append, List.length_append, List.length_append,
      hsign, hdigit hhigh, hdigit hlow, List.length_cons]
    omega

/-- The encoding of bytes that escapes every one. -/
def escapeAll (bytes : List UInt8) : List Char :=
  bytes.flatMap fun byte => ['%', Nat.digitChar (byte.toNat / 16), Nat.digitChar (byte.toNat % 16)]

/-- All bytes can be escaped. -/
theorem encodes_escapeAll (bytes : List UInt8) : Encodes (escapeAll bytes) bytes := by
  induction bytes with
  | nil => exact .nil
  | cons byte bytes ih =>
    have hlt := byte.toNat_lt
    exact .escape ⟨by omega, Or.inl rfl⟩ ⟨by omega, Or.inl rfl⟩ ih

end Percent

/-! ### Paths -/

open Percent

variable {segment : List Char} {key : String}

/-- A character takes at most four bytes. -/
theorem length_utf8_le_length (text : List Char) : (utf8 text).length ≤ 4 * text.length := by
  induction text with
  | nil => exact Nat.le_refl 0
  | cons c text ih =>
    have hsize := c.utf8Size_le_four
    rw [utf8_cons, List.length_append, String.length_utf8EncodeChar, List.length_cons]
    omega

/-- A text of characters that may stand in a path is a path. -/
theorem pathOf?_of_all {path : List Char} (h : ∀ c ∈ path, isPathChar c = true) :
    pathOf? path = some path := by
  have hstop (c : Char) (hc : c ∈ path) : (c != '?' && c != '#') = true := by
    have hpath := h c hc
    by_cases hquestion : c = '?'
    · subst hquestion
      exact absurd hpath (by decide)
    by_cases hsign : c = '#'
    · subst hsign
      exact absurd hpath (by decide)
    simp [hquestion, hsign]
  have htake : path.takeWhile (fun c => c != '?' && c != '#') = path :=
    List.takeWhile_eq_self_iff.mpr hstop
  have hdrop : path.dropWhile (fun c => c != '?' && c != '#') = [] :=
    List.dropWhile_eq_nil_iff.mpr hstop
  have hall : path.all isPathChar = true := List.all_eq_true.mpr h
  simp only [pathOf?, htake, hdrop, hall]
  rfl

/-- A path that ends in the segment of an acceptable key is the target of a request. -/
theorem targetPath?_of_encodes {front : String} (hslash : front.toList.head? = some '/')
    (hchars : front.toList.all isPathChar = true) (hshort : (utf8 front.toList).length ≤ 1024)
    (hkey : key.length ≤ SetRequest.longestKey) (h : Encodes segment (utf8 key.toList)) :
    targetPath? (front ++ String.ofList segment) = some (front.toList ++ segment) := by
  obtain ⟨rest, hfront⟩ := List.head?_eq_some_iff.mp hslash
  have hsize : (front ++ String.ofList segment).utf8ByteSize ≤ longestTarget := by
    have hsegment := length_utf8_le h
    have hbytes := length_utf8_le_length key.toList
    rw [String.length_toList] at hbytes
    rw [String.utf8ByteSize_append, utf8ByteSize_eq, utf8ByteSize_eq, String.toList_ofList]
    unfold SetRequest.longestKey at hkey
    unfold longestTarget
    omega
  have hpath : pathOf? (front.toList ++ segment) = some (front.toList ++ segment) :=
    pathOf?_of_all fun c hc => (List.mem_append.mp hc).elim (List.all_eq_true.mp hchars c)
      fun hsegment => (isPathChar_of_encodes h c hsegment).1
  rw [hfront, List.cons_append] at hpath
  have htext : (front ++ String.ofList segment).toList = '/' :: (rest ++ segment) := by
    rw [String.toList_append, String.toList_ofList, hfront, List.cons_append]
  rw [targetPath?, if_neg (Nat.not_lt.mpr hsize), htext, hfront, List.cons_append]
  exact hpath

/-- The parts of a path between the slashes are its front and the segment. -/
theorem splitOn_of_encodes (name : List Char) (hname : '/' ∉ name)
    (h : Encodes segment (utf8 key.toList)) :
    ('/' :: (name ++ '/' :: segment)).splitOn '/' = [[], name, segment] := by
  have hsegment : '/' ∉ segment := fun hmem => (isPathChar_of_encodes h '/' hmem).2 rfl
  have hfirst := List.splitOn_append_cons_self (a := '/') [] (name ++ '/' :: segment)
  rw [List.nil_append] at hfirst
  rw [hfirst, List.splitOn_append_cons_self, List.splitOn_eq_singleton hname,
    List.splitOn_eq_singleton hsegment]
  rfl

/-- The segment of a key that is not empty is not empty. -/
theorem ofList_ne_empty (h : Encodes segment (utf8 key.toList)) (hkey : key ≠ "") :
    String.ofList segment ≠ "" := by
  intro hempty
  have hdecoded := decode?_of_encodes h
  rw [hempty] at hdecoded
  have hnothing : decode? "" = some "" := decode?_of_encodes (.nil : Encodes [] (utf8 "".toList))
  rw [hnothing] at hdecoded
  exact hkey (Option.some.inj hdecoded).symm

/-- A path that ends in the segment of a key leads to the key. -/
theorem ofPath?_get (h : Encodes segment (utf8 key.toList)) (hkey : key ≠ "") :
    Resource.ofPath? ("/get/".toList ++ segment) = some (.get (String.ofList segment)) := by
  have hfront : "/get/".toList = ['/', 'g', 'e', 't', '/'] := by decide
  have hsplit : ("/get/".toList ++ segment).splitOn '/' = [[], ['g', 'e', 't'], segment] := by
    rw [hfront]
    exact splitOn_of_encodes ['g', 'e', 't'] (by decide) h
  simp only [Resource.ofPath?, hsplit, List.map_cons, List.map_nil]
  exact if_neg (ofList_ne_empty h hkey)

/-- A path that ends in the segment of a key leads to the deletion of the key. -/
theorem ofPath?_delete (h : Encodes segment (utf8 key.toList)) (hkey : key ≠ "") :
    Resource.ofPath? ("/del/".toList ++ segment) = some (.delete (String.ofList segment)) := by
  have hfront : "/del/".toList = ['/', 'd', 'e', 'l', '/'] := by decide
  have hsplit : ("/del/".toList ++ segment).splitOn '/' = [[], ['d', 'e', 'l'], segment] := by
    rw [hfront]
    exact splitOn_of_encodes ['d', 'e', 'l'] (by decide) h
  simp only [Resource.ofPath?, hsplit, List.map_cons, List.map_nil]
  exact if_neg (ofList_ne_empty h hkey)

end DurableCache.Http
