import Mathlib.Tactic.ByContra
import Mathlib.Tactic.SplitIfs

/-!
# The Order of Texts Is the Order of Their Bytes

Texts are compared character by character. Their encoding in UTF-8 is made such that to
compare the bytes comes to the same: of two different characters the smaller one has, at
the first byte in which their codes differ, the smaller byte, and neither code begins
with the other. For the same reason a text begins with another one whenever its bytes do.

## Main results

* `lt_iff_bytes_lt`: a text is smaller than another one iff its bytes are.
* `bytes_prefix_iff`: a text begins with another one iff its bytes do.
* `find?_eq_some_iff_of_sorted`: what is found first in an ascending list is the smallest.
-/

namespace Propositional

/-- The bytes of a text. -/
def bytes (s : String) : List UInt8 :=
  s.toByteArray.data.toList

/-- The bytes of a text are the codes of its characters, one after the other. -/
theorem bytes_eq (s : String) : bytes s = s.toList.flatMap String.utf8EncodeChar := by
  have h : s.toByteArray = s.toList.utf8Encode := by
    rw [← String.toByteArray_ofList, String.ofList_toList]
  rw [bytes, h, List.utf8Encode, List.toList_data_toByteArray]

/-- Of two characters the smaller one has the smaller code, whatever follows. -/
theorem utf8EncodeChar_append_lt {c d : Char} (h : c < d) (xs ys : List UInt8) :
    String.utf8EncodeChar c ++ xs < String.utf8EncodeChar d ++ ys := by
  have hlt : c.val.toNat < d.val.toNat := h
  have hd : d.val.toNat < 1114112 := by
    rcases d.valid with hd | hd
    · exact Nat.lt_trans hd (by decide)
    · exact hd.2
  have hdigits : ∀ n : Nat, n / 4096 = n / 64 / 64 ∧ n / 262144 = n / 64 / 64 / 64 := by
    intro n
    rw [Nat.div_div_eq_div_mul, Nat.div_div_eq_div_mul]
    exact ⟨rfl, rfl⟩
  unfold String.utf8EncodeChar
  generalize c.val.toNat = m at hlt
  generalize d.val.toNat = n at hlt hd
  dsimp only
  rw [(hdigits m).1, (hdigits m).2, (hdigits n).1, (hdigits n).2]
  split_ifs <;> simp only [List.cons_append, List.nil_append, List.cons_lt_cons_iff,
    UInt8.lt_iff_toNat_lt, ← UInt8.toNat_inj, UInt8.toNat_ofNat'] <;> omega

/-- Texts that are ordered by their first different character are ordered by their
bytes. -/
theorem flatMap_utf8EncodeChar_lt {cs ds : List Char} (h : cs < ds) :
    cs.flatMap String.utf8EncodeChar < ds.flatMap String.utf8EncodeChar := by
  induction cs generalizing ds with
  | nil =>
      cases ds with
      | nil => exact absurd h (List.lt_irrefl [])
      | cons d ds =>
          obtain ⟨b, bs, hb⟩ := List.exists_cons_of_ne_nil (String.utf8EncodeChar_ne_nil (c := d))
          rw [List.flatMap_nil, List.flatMap_cons, hb, List.cons_append]
          exact List.nil_lt_cons _ _
  | cons c cs ih =>
      cases ds with
      | nil => exact absurd h (List.not_lt_nil _)
      | cons d ds =>
          rw [List.flatMap_cons, List.flatMap_cons]
          rcases List.cons_lt_cons_iff.mp h with hcd | ⟨rfl, hrest⟩
          · exact utf8EncodeChar_append_lt hcd _ _
          · exact List.append_left_lt (ih hrest)

/-- **A text is smaller than another one iff its bytes are.** -/
theorem lt_iff_bytes_lt {s t : String} : s < t ↔ bytes s < bytes t := by
  rw [bytes_eq, bytes_eq]
  change s.toList < t.toList ↔ _
  constructor
  · exact flatMap_utf8EncodeChar_lt
  · intro h
    by_contra hnot
    rcases List.le_iff_lt_or_eq.mp (List.not_lt.mp hnot) with hgt | heq
    · exact List.lt_asymm (flatMap_utf8EncodeChar_lt hgt) h
    · rw [heq] at h
      exact List.lt_irrefl _ h

/-- The bytes of a joined text are those of its parts. -/
theorem bytes_append (s t : String) : bytes (s ++ t) = bytes s ++ bytes t := by
  simp only [bytes_eq, String.toList_append, List.flatMap_append]

/-- Texts with the same bytes are the same. -/
theorem bytes_inj {s t : String} : bytes s = bytes t ↔ s = t := by
  rw [bytes, bytes, Array.toList_inj, ← ByteArray.ext_iff, String.toByteArray_inj]

/-- The code of a character tells where it ends: no code begins another one. -/
theorem utf8EncodeChar_append_inj {c d : Char} {xs ys : List UInt8}
    (h : String.utf8EncodeChar c ++ xs = String.utf8EncodeChar d ++ ys) : c = d ∧ xs = ys := by
  have hcd : c = d := by
    by_contra hne
    rcases UInt32.lt_or_lt_of_ne (mt Char.ext hne) with hlt | hgt
    · exact List.lt_irrefl _ (h ▸ utf8EncodeChar_append_lt hlt xs ys)
    · exact List.lt_irrefl _ (h ▸ utf8EncodeChar_append_lt hgt ys xs)
  subst hcd
  exact ⟨rfl, List.append_cancel_left h⟩

/-- **A text begins with another one iff its bytes do.** -/
theorem bytes_prefix_iff {s t : String} : bytes s <+: bytes t ↔ s.toList <+: t.toList := by
  rw [bytes_eq, bytes_eq]
  generalize s.toList = cs
  generalize t.toList = ds
  induction cs generalizing ds with
  | nil => simp
  | cons c cs ih =>
      rw [List.flatMap_cons]
      constructor
      · rintro ⟨more, hmore⟩
        cases ds with
        | nil => simp [String.utf8EncodeChar_ne_nil] at hmore
        | cons d ds =>
            rw [List.flatMap_cons, List.append_assoc] at hmore
            obtain ⟨rfl, hrest⟩ := utf8EncodeChar_append_inj hmore
            exact List.cons_prefix_cons.mpr ⟨rfl, (ih ds).mp ⟨more, hrest⟩⟩
      · rintro ⟨more, rfl⟩
        simp

/-- A text of ASCII characters has one byte for each of them. -/
theorem length_bytes_of_ascii {s : String} (h : ∀ c ∈ s.toList, c.val ≤ 127) :
    (bytes s).length = s.length := by
  rw [bytes_eq, ← String.length_toList, List.length_flatMap]
  generalize s.toList = cs at h
  induction cs with
  | nil => rfl
  | cons c cs ih =>
      obtain ⟨hc, hcs⟩ := List.forall_mem_cons.mp h
      rw [List.map_cons, List.sum_cons, ih hcs, String.length_utf8EncodeChar,
        Char.utf8Size_eq_one_iff.mpr hc, List.length_cons, Nat.add_comm]

/-- Characters of one byte each are as many bytes. -/
theorem length_bytes_ofList {cs : List Char} (h : ∀ c ∈ cs, c.val ≤ 127) :
    (bytes (String.ofList cs)).length = cs.length := by
  rw [length_bytes_of_ascii, String.length_ofList]
  rwa [String.toList_ofList]

/-- Of an ascending list of texts, the first one with a property is the one with that
property whose bytes are the smallest. -/
theorem find?_eq_some_iff_of_sorted {p : String → Bool} {names : List String} {v : String}
    (hsorted : names.Pairwise (· < ·)) :
    names.find? p = some v ↔
      v ∈ names ∧ p v = true ∧ ∀ w ∈ names, p w = true → w ≠ v → bytes v < bytes w := by
  simp only [← lt_iff_bytes_lt]
  induction names with
  | nil => simp
  | cons x names ih =>
      obtain ⟨hx, hrest⟩ := List.pairwise_cons.mp hsorted
      by_cases hpx : p x = true
      · rw [List.find?_cons_of_pos hpx, Option.some.injEq]
        constructor
        · rintro rfl
          refine ⟨List.mem_cons_self, hpx, fun w hw _ hne => ?_⟩
          exact hx w ((List.mem_cons.mp hw).resolve_left hne)
        · rintro ⟨hv, _, hleast⟩
          by_contra hne
          have hmem : v ∈ names := (List.mem_cons.mp hv).resolve_left fun h => hne h.symm
          have hvx : v < x := hleast x List.mem_cons_self hpx hne
          exact String.lt_asymm hvx (hx v hmem)
      · rw [List.find?_cons_of_neg hpx, ih hrest]
        constructor
        · rintro ⟨hv, hpv, hleast⟩
          refine ⟨List.mem_cons_of_mem x hv, hpv, fun w hw hpw hne => ?_⟩
          rcases List.mem_cons.mp hw with rfl | hw
          · exact absurd hpw hpx
          · exact hleast w hw hpw hne
        · rintro ⟨hv, hpv, hleast⟩
          refine ⟨?_, hpv, fun w hw => hleast w (List.mem_cons_of_mem x hw)⟩
          refine (List.mem_cons.mp hv).resolve_left ?_
          rintro rfl
          exact hpx hpv

end Propositional
