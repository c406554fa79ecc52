import Mathlib.Data.List.TakeWhile

/-!
# Written forms that show where they end

A written form is delimited if it can be told from whatever stands behind it. Delimited forms can be
put one after the other, and what was written can still be told (`Delimited.flatMap_cut`).
-/

namespace LoxLexer

variable {α β : Type}

/-! ## Runs -/

/-- A run of what passes a test ends where the test fails. -/
theorem append_cut {p : α → Bool} {as bs xs ys : List α} (has : ∀ a ∈ as, p a = true)
    (hbs : ∀ b ∈ bs, p b = true) (hxs : ∀ x ∈ xs.head?, p x = false)
    (hys : ∀ y ∈ ys.head?, p y = false) (h : as ++ xs = bs ++ ys) : as = bs ∧ xs = ys := by
  have hstop {zs : List α} (hzs : ∀ z ∈ zs.head?, p z = false) : zs.takeWhile p = [] := by
    cases zs with
    | nil => rfl
    | cons z zs => simp [hzs z rfl]
  have hfront := congrArg (List.takeWhile p) h
  simp only [List.takeWhile_append_of_pos has, List.takeWhile_append_of_pos hbs, hstop hxs,
    hstop hys, List.append_nil] at hfront
  subst hfront
  exact ⟨rfl, List.append_cancel_left h⟩

/-- What has no mark in it ends before the first mark. -/
theorem mark_cut [DecidableEq α] {mark : α} {as bs xs ys : List α} (has : mark ∉ as)
    (hbs : mark ∉ bs) (h : as ++ mark :: xs = bs ++ mark :: ys) : as = bs ∧ xs = ys := by
  have hpass {cs : List α} (hcs : mark ∉ cs) : ∀ c ∈ cs, (c != mark) = true := by
    intro c hc
    exact bne_iff_ne.2 (ne_of_mem_of_not_mem hc hcs)
  have hstop {zs : List α} : ∀ z ∈ (mark :: zs).head?, (z != mark) = false := by
    intro z hz
    cases hz
    exact bne_self_eq_false mark
  obtain ⟨rfl, htail⟩ := append_cut (hpass has) (hpass hbs) hstop hstop h
  exact ⟨rfl, (List.cons.inj htail).2⟩

/-! ## Digits -/

theorem toDigits_injective {m n : Nat} (h : Nat.toDigits 10 m = Nat.toDigits 10 n) : m = n := by
  rw [← Nat.ofDigitChars_ten_toDigits (n := m), h, Nat.ofDigitChars_ten_toDigits]

theorem not_mem_toDigits (n : Nat) {c : Char} (hc : c.isDigit = false) :
    c ∉ Nat.toDigits 10 n := by
  intro hmem
  have hdigit := Nat.isDigit_of_mem_toDigits (by decide) (by decide) hmem
  rw [hc] at hdigit
  cases hdigit

/-! ## Delimited forms -/

/-- Of two things, the written form shows which one it is and where the form ends, in front of what
may follow. -/
def Delimited (write : α → List β) (Follow : List β → Prop) (a b : α) : Prop :=
  ∀ xs ys, Follow xs → Follow ys → write a ++ xs = write b ++ ys → a = b ∧ xs = ys

/-- Anything may follow. -/
def Anything (_ : List β) : Prop := True

namespace Delimited

variable {write : α → List β} {Follow : List β → Prop} {as bs : List α}

/-- Written one after the other, in front of what begins with none of the forms. -/
theorem flatMap_cut (hcut : ∀ a ∈ as, ∀ b ∈ bs, Delimited write Follow a b)
    (hfollow : ∀ a zs, Follow (write a ++ zs)) {xs ys : List β} (hxs : Follow xs) (hys : Follow ys)
    (hbs : ∀ b ∈ bs, ¬write b <+: xs) (has : ∀ a ∈ as, ¬write a <+: ys)
    (h : as.flatMap write ++ xs = bs.flatMap write ++ ys) : as = bs ∧ xs = ys := by
  have hrest {zs : List β} (hzs : Follow zs) (cs : List α) : Follow (cs.flatMap write ++ zs) := by
    cases cs with
    | nil => exact hzs
    | cons c cs => simp [hfollow]
  induction as generalizing bs with
  | nil =>
      cases bs with
      | nil => exact ⟨rfl, h⟩
      | cons b bs =>
          rw [List.flatMap_cons, List.append_assoc] at h
          exact absurd ⟨_, h.symm⟩ (hbs b List.mem_cons_self)
  | cons a as ih =>
      rw [List.flatMap_cons, List.append_assoc] at h
      cases bs with
      | nil => exact absurd ⟨_, h⟩ (has a List.mem_cons_self)
      | cons b bs =>
          rw [List.flatMap_cons, List.append_assoc] at h
          obtain ⟨rfl, htail⟩ := hcut a List.mem_cons_self b List.mem_cons_self _ _ (hrest hxs as)
            (hrest hys bs) h
          obtain ⟨rfl, hend⟩ := ih
            (fun c hc d hd => hcut c (List.mem_cons_of_mem a hc) d (List.mem_cons_of_mem a hd))
            (fun d hd => hbs d (List.mem_cons_of_mem a hd))
            (fun c hc => has c (List.mem_cons_of_mem a hc)) htail
          exact ⟨rfl, hend⟩

/-- Written one after the other, with nothing behind them. -/
theorem flatMap_injective (hcut : ∀ a ∈ as, ∀ b ∈ bs, Delimited write Anything a b)
    (has : ∀ a ∈ as, write a ≠ []) (hbs : ∀ b ∈ bs, write b ≠ [])
    (h : as.flatMap write = bs.flatMap write) : as = bs := by
  have hnone {cs : List α} (hcs : ∀ c ∈ cs, write c ≠ []) : ∀ c ∈ cs, ¬write c <+: [] := by
    intro c hc hfront
    exact hcs c hc (List.prefix_nil.1 hfront)
  have happend : as.flatMap write ++ [] = bs.flatMap write ++ [] := by simp [h]
  exact (flatMap_cut hcut (fun _ _ => trivial) trivial trivial (hnone hbs) (hnone has) happend).1

end Delimited

end LoxLexer
