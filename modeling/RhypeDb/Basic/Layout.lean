import RhypeDb.Basic.ByteOrder

/-! Keys of numbers in fixed widths: a part of the numbers is a prefix of the bytes just if it is a
prefix of the numbers. -/

namespace RhypeDb.Layout

open ByteOrder List

/-- By the width of each number and the bytes behind it. -/
def encode : List (ℕ × Bytes) → List ℕ → Bytes
  | (w, behind) :: layout, n :: ns => be w n ++ (behind ++ encode layout ns)
  | _, _ => []

/-- The numbers fit their widths; the last ones may be missing. -/
def Fits : List (ℕ × Bytes) → List ℕ → Prop
  | _, [] => True
  | [], _ :: _ => False
  | (w, _) :: layout, n :: ns => n < 256 ^ w ∧ Fits layout ns

theorem encode_isPrefix {layout : List (ℕ × Bytes)} {ns ms : List ℕ} {rest : Bytes}
    (hns : Fits layout ns)
    (hms : Fits layout ms) (hfull : ms.length = layout.length) :
    encode layout ns <+: encode layout ms ++ rest ↔ ns <+: ms := by
  induction layout generalizing ns ms with
  | nil =>
    cases ns with
    | nil => exact iff_of_true nil_prefix nil_prefix
    | cons n ns => cases hns
  | cons field layout ih =>
    obtain ⟨m, ms, rfl⟩ := exists_cons_of_length_eq_add_one hfull
    cases ns with
    | nil => exact iff_of_true nil_prefix nil_prefix
    | cons n ns =>
      rw [cons_prefix_cons, ← ih hns.2 hms.2 (Nat.succ.inj hfull)]
      simp only [encode, append_assoc]
      constructor
      · rintro ⟨t, ht⟩
        rw [append_assoc] at ht
        obtain ⟨hword, ht⟩ := append_inj ht (by rw [be_length, be_length])
        rw [append_assoc, append_right_inj] at ht
        exact ⟨be_inj hns.1 hms.1 hword, t, ht⟩
      · rintro ⟨rfl, h⟩
        exact (prefix_append_right_inj _).mpr ((prefix_append_right_inj _).mpr h)

end RhypeDb.Layout
