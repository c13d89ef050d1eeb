import Mathlib.Data.List.Basic

/-!
# Kanata.Lib.Utf8 — byte positions in a text

A text is a list of characters and its bytes are their UTF-8 encodings in a row.
`Boundary cs p` says that the byte position `p` lies between two characters, and
`slice` takes the characters between two positions, if both are boundaries.

In an encoded text the bytes below 128 are characters of their own, so the
position before and the one after such a byte are boundaries
(`boundary_of_ascii`).
-/

namespace Utf8

/-- The bytes of a text. -/
def encode (cs : List Char) : List UInt8 := cs.flatMap String.utf8EncodeChar

@[simp] theorem encode_nil : encode [] = [] := rfl

@[simp] theorem encode_cons (c : Char) (cs : List Char) :
    encode (c :: cs) = String.utf8EncodeChar c ++ encode cs := rfl

@[simp] theorem encode_append (cs ds : List Char) : encode (cs ++ ds) = encode cs ++ encode ds := by
  simp [encode]

/-- The byte position lies between two characters. -/
def Boundary (cs : List Char) (p : Nat) : Prop :=
  ∃ before after, cs = before ++ after ∧ (encode before).length = p

theorem boundary_zero (cs : List Char) : Boundary cs 0 := ⟨[], cs, rfl, rfl⟩

theorem boundary_length (cs : List Char) : Boundary cs (encode cs).length :=
  ⟨cs, [], (List.append_nil cs).symm, rfl⟩

theorem Boundary.cons {cs : List Char} {p : Nat} (c : Char) (h : Boundary cs p) :
    Boundary (c :: cs) ((String.utf8EncodeChar c).length + p) := by
  rcases h with ⟨before, after, rfl, rfl⟩
  exact ⟨c :: before, after, rfl, by simp⟩

theorem ofNat_not_ascii {n : Nat} (hle : 128 ≤ n) (hlt : n < 256) : ¬ UInt8.ofNat n < 128 := by
  intro h
  have hn : (UInt8.ofNat n).toNat < 128 := h
  rw [UInt8.toNat_ofNat_of_lt' hlt] at hn
  omega

/-- A byte of a character's encoding is the whole encoding, or not ASCII. -/
theorem utf8EncodeChar_ascii {c : Char} {b : UInt8} (hb : b ∈ String.utf8EncodeChar c)
    (hlt : b < 128) : String.utf8EncodeChar c = [b] := by
  unfold String.utf8EncodeChar at hb ⊢
  simp only at hb ⊢
  split at hb
  · rename_i hone
    rw [if_pos hone]
    rw [List.mem_singleton.mp hb]
  · exfalso
    split at hb
    · simp only [List.mem_cons, List.not_mem_nil, or_false] at hb
      rcases hb with rfl | rfl
      · exact ofNat_not_ascii (by omega) (by omega) hlt
      · exact ofNat_not_ascii (by omega) (by omega) hlt
    · split at hb
      · simp only [List.mem_cons, List.not_mem_nil, or_false] at hb
        rcases hb with rfl | rfl | rfl
        · exact ofNat_not_ascii (by omega) (by omega) hlt
        · exact ofNat_not_ascii (by omega) (by omega) hlt
        · exact ofNat_not_ascii (by omega) (by omega) hlt
      · simp only [List.mem_cons, List.not_mem_nil, or_false] at hb
        rcases hb with rfl | rfl | rfl | rfl
        · exact ofNat_not_ascii (by omega) (by omega) hlt
        · exact ofNat_not_ascii (by omega) (by omega) hlt
        · exact ofNat_not_ascii (by omega) (by omega) hlt
        · exact ofNat_not_ascii (by omega) (by omega) hlt

theorem utf8EncodeChar_length_pos (c : Char) : 0 < (String.utf8EncodeChar c).length := by
  rw [String.length_utf8EncodeChar]
  exact c.utf8Size_pos

/-- Around an ASCII byte there are boundaries. -/
theorem boundary_of_ascii {b : UInt8} (hlt : b < 128) :
    ∀ {cs : List Char} {p : Nat}, (encode cs)[p]? = some b →
      Boundary cs p ∧ Boundary cs (p + 1)
  | [], p, h => by simp at h
  | c :: cs, p, h => by
    rw [encode_cons] at h
    by_cases hp : p < (String.utf8EncodeChar c).length
    · rw [List.getElem?_append_left hp] at h
      have hone := utf8EncodeChar_ascii (List.mem_of_getElem? h) hlt
      have hzero : p = 0 := by
        rw [hone] at hp
        simpa using hp
      subst hzero
      refine ⟨boundary_zero _, ?_⟩
      have hnext := (boundary_zero cs).cons c
      rw [hone] at hnext
      exact hnext
    · rw [List.getElem?_append_right (Nat.le_of_not_lt hp)] at h
      rcases boundary_of_ascii hlt h with ⟨hbefore, hafter⟩
      have hsplit : (String.utf8EncodeChar c).length + (p - (String.utf8EncodeChar c).length) = p :=
        by omega
      have h1 := hbefore.cons c
      have h2 := hafter.cons c
      rw [hsplit] at h1
      rw [← Nat.add_assoc, hsplit] at h2
      exact ⟨h1, h2⟩

/-! ## Slices -/

/-- The text from a byte position on. -/
def dropBytes : List Char → Nat → Option (List Char)
  | cs, 0 => some cs
  | [], _ + 1 => none
  | c :: cs, n + 1 =>
    if (String.utf8EncodeChar c).length ≤ n + 1 then
      dropBytes cs (n + 1 - (String.utf8EncodeChar c).length)
    else none

/-- The text up to a byte position. -/
def takeBytes : List Char → Nat → Option (List Char)
  | _, 0 => some []
  | [], _ + 1 => none
  | c :: cs, n + 1 =>
    if (String.utf8EncodeChar c).length ≤ n + 1 then
      (takeBytes cs (n + 1 - (String.utf8EncodeChar c).length)).map (c :: ·)
    else none

/-- The characters between two byte positions. -/
def slice (cs : List Char) (start stop : Nat) : Option (List Char) :=
  (dropBytes cs start).bind fun cs => takeBytes cs (stop - start)

theorem dropBytes_append (after : List Char) :
    ∀ before : List Char, dropBytes (before ++ after) (encode before).length = some after
  | [] => by
    unfold dropBytes
    cases after <;> rfl
  | c :: before => by
    have hpos := utf8EncodeChar_length_pos c
    have ih := dropBytes_append after before
    rcases Nat.exists_eq_succ_of_ne_zero (Nat.pos_iff_ne_zero.mp hpos) with ⟨k, hk⟩
    have hlen : (encode (c :: before)).length = k + (encode before).length + 1 := by
      rw [encode_cons, List.length_append, hk]
      omega
    rw [hlen, List.cons_append, dropBytes, hk, if_pos (by omega)]
    have hrest : k + (encode before).length + 1 - (k + 1) = (encode before).length := by omega
    rw [hrest, ih]

theorem takeBytes_append (after : List Char) :
    ∀ mid : List Char, takeBytes (mid ++ after) (encode mid).length = some mid
  | [] => by
    unfold takeBytes
    cases after <;> rfl
  | c :: mid => by
    have hpos := utf8EncodeChar_length_pos c
    have ih := takeBytes_append after mid
    rcases Nat.exists_eq_succ_of_ne_zero (Nat.pos_iff_ne_zero.mp hpos) with ⟨k, hk⟩
    have hlen : (encode (c :: mid)).length = k + (encode mid).length + 1 := by
      rw [encode_cons, List.length_append, hk]
      omega
    rw [hlen, List.cons_append, takeBytes, hk, if_pos (by omega)]
    have hrest : k + (encode mid).length + 1 - (k + 1) = (encode mid).length := by omega
    rw [hrest, ih]
    rfl

theorem encode_eq_nil {cs : List Char} (h : (encode cs).length = 0) : cs = [] := by
  cases cs with
  | nil => rfl
  | cons c cs =>
    have hpos := utf8EncodeChar_length_pos c
    rw [encode_cons, List.length_append] at h
    omega

/-- Two boundaries cut the text in three. -/
theorem exists_cut {cs : List Char} {p q : Nat} (hp : Boundary cs p) (hq : Boundary cs q)
    (hle : p ≤ q) :
    ∃ before mid after, cs = before ++ (mid ++ after) ∧ (encode before).length = p ∧
      (encode mid).length = q - p := by
  rcases hp with ⟨b₁, a₁, rfl, rfl⟩
  rcases hq with ⟨b₂, a₂, heq, rfl⟩
  rcases List.append_eq_append_iff.mp heq with ⟨mid, hb₂, ha₁⟩ | ⟨mid, hb₁, ha₂⟩
  · refine ⟨b₁, mid, a₂, by rw [ha₁], rfl, ?_⟩
    rw [hb₂, encode_append, List.length_append]
    omega
  · have hnil : mid = [] := by
      refine encode_eq_nil ?_
      rw [hb₁, encode_append, List.length_append] at hle
      omega
    subst hnil
    refine ⟨b₁, [], a₁, rfl, rfl, ?_⟩
    rw [hb₁, List.append_nil]
    simp

/-- Between boundaries there is a text, and its bytes are those of the range. -/
theorem slice_of_boundary {cs : List Char} {p q : Nat} (hp : Boundary cs p) (hq : Boundary cs q)
    (hle : p ≤ q) :
    ∃ text, slice cs p q = some text ∧ encode text = ((encode cs).drop p).take (q - p) := by
  rcases exists_cut hp hq hle with ⟨before, mid, after, rfl, hbefore, hmid⟩
  refine ⟨mid, ?_, ?_⟩
  · unfold slice
    rw [← hbefore, dropBytes_append, Option.bind_some, hbefore, ← hmid, takeBytes_append]
  · rw [encode_append, List.drop_left' hbefore, encode_append, List.take_left' hmid]

end Utf8
