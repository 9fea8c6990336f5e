import Zligc.StringAgree

/-!
# The occurrence strstr finds

It is the leftmost one: what stands before it is as short as it can be. It stays where
it is when the haystack is continued.
-/
namespace ZligcString

open Effect CellMemory Zig Occurrence

/-- What strstr says of the haystack `h` at `p` and the needle `n` at `q`. -/
structure FindsLeftmost (m : Mem) (p q : Nat) (h n : List UInt8) : Prop where
  found : ∀ k, (strstr p q).run m = .ok (some (p + k)) m ↔
    (∃ a b, h = a ++ n ++ b ∧ a.length = k) ∧ ∀ a b, h = a ++ n ++ b → k ≤ a.length
  missing : (strstr p q).run m = .ok none m ↔ ¬ ∃ a b, h = a ++ n ++ b
  empty : n = [] → (strstr p q).run m = .ok (some p) m
  whole : h = n → (strstr p q).run m = .ok (some p) m
  continued : ∀ (m' : Mem) p' q' x k, StringAt m' p' (h ++ x) → StringAt m' q' n →
    (strstr p q).run m = .ok (some (p + k)) m → (strstr p' q').run m' = .ok (some (p' + k)) m'

variable {m : Mem} {p q : Nat} {h n : List UInt8}

theorem strstr_at (hh : StringAt m p h) (hn : StringAt m q n) (k : Nat) :
    (strstr p q).run m = .ok (some (p + k)) m ↔ locate n h = some k := by
  rw [strstr_run hh hn]
  constructor
  · intro hrun
    obtain ⟨i, hi, hik⟩ := Option.map_eq_some_iff.mp (EStateM.Result.ok.inj hrun).1
    rw [hi, Nat.add_left_cancel hik]
  · intro hk
    rw [hk]
    rfl

theorem strstr_none (hh : StringAt m p h) (hn : StringAt m q n) :
    (strstr p q).run m = .ok none m ↔ locate n h = none := by
  rw [strstr_run hh hn]
  constructor
  · intro hrun
    exact Option.map_eq_none_iff.mp (EStateM.Result.ok.inj hrun).1
  · intro hk
    rw [hk]
    rfl

theorem strstr_leftmost (hh : StringAt m p h) (hn : StringAt m q n) : FindsLeftmost m p q h n := by
  constructor
  · intro k
    rw [strstr_at hh hn, locate_iff_shortest]
  · rw [strstr_none hh hn, locate_none_iff_nowhere]
  · rintro rfl
    exact (strstr_at hh hn 0).mpr (locate_start List.nil_prefix)
  · rintro rfl
    exact (strstr_at hh hn 0).mpr (locate_start (List.prefix_refl h))
  · intro m' p' q' x k hx hn' hrun
    rw [strstr_at hx hn']
    exact locate_append ((strstr_at hh hn k).mp hrun) x

theorem strstr_leftmost_example : FindsLeftmost orderedMem 3 1 [97, 98] [97] :=
  strstr_leftmost ⟨by decide, by decide⟩ ⟨by decide, by decide⟩

end ZligcString
