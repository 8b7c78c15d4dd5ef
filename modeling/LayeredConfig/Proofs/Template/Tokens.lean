import LayeredConfig.Proofs.Template.Grammar
import LayeredConfig.Resolve.Engine

/-!
# The tokens of a placeholder

The tokens of a placeholder are made of the characters of its body.  Since a body
holds no brace, no token has a placeholder (`not_hasPlaceholder_of_mem_tokens`):
a path, a default or an argument is never substituted again for its own sake.
-/

namespace LayeredConfig

namespace Text

theorem mem_of_mem_trim {c : Char} {cs : List Char} (h : c ∈ trim cs) : c ∈ cs := by
  rw [trim, trimEnd, List.mem_reverse] at h
  exact (List.dropWhile_suffix isBlank).subset
    (List.mem_reverse.1 ((List.dropWhile_suffix isBlank).subset h))

end Text

namespace Template

theorem mem_of_mem_splitOn {a c : Char} {cs part : List Char} (hp : part ∈ cs.splitOn a)
    (hc : c ∈ part) : c ∈ cs := by
  induction cs generalizing part with
  | nil =>
    rw [List.splitOn_nil, List.mem_singleton] at hp
    exact hp ▸ hc
  | cons d rest ih =>
    rw [List.splitOn_cons_eq_if_modifyHead] at hp
    split at hp
    · rcases List.mem_cons.1 hp with rfl | hp
      · cases hc
      · exact List.mem_cons_of_mem _ (ih hp hc)
    · obtain ⟨t, ts, h⟩ := List.exists_cons_of_ne_nil (List.splitOn_ne_nil a rest)
      rw [h, List.modifyHead_cons] at hp
      rcases List.mem_cons.1 hp with rfl | hp
      · rcases List.mem_cons.1 hc with rfl | hc
        · exact List.mem_cons_self
        · exact List.mem_cons_of_mem _ (ih (h ▸ List.mem_cons_self) hc)
      · exact List.mem_cons_of_mem _ (ih (h ▸ List.mem_cons_of_mem _ hp) hc)

theorem notMem_of_mem_splitOn {a : Char} {cs part : List Char} (hp : part ∈ cs.splitOn a) :
    a ∉ part := by
  induction cs generalizing part with
  | nil =>
    rw [List.splitOn_nil, List.mem_singleton] at hp
    exact hp ▸ List.not_mem_nil
  | cons d rest ih =>
    rw [List.splitOn_cons_eq_if_modifyHead] at hp
    split at hp
    · rcases List.mem_cons.1 hp with rfl | hp
      · exact List.not_mem_nil
      · exact ih hp
    · rename_i hd
      obtain ⟨t, ts, h⟩ := List.exists_cons_of_ne_nil (List.splitOn_ne_nil a rest)
      rw [h, List.modifyHead_cons] at hp
      rcases List.mem_cons.1 hp with rfl | hp
      · intro hmem
        rcases List.mem_cons.1 hmem with rfl | hmem
        · exact hd (by simp)
        · exact ih (h ▸ List.mem_cons_self) hmem
      · exact ih (h ▸ List.mem_cons_of_mem _ hp)

/-- The tokens of a body. -/
def tokensOf (cs : List Char) : List String :=
  (cs.splitOn ',').map fun part => String.ofList (Text.trim part)

/-- The tokens of a body are made of its characters. -/
theorem mem_of_mem_tokensOf {cs : List Char} {t : String} (ht : t ∈ tokensOf cs) {c : Char}
    (hc : c ∈ t.toList) : c ∈ cs := by
  obtain ⟨part, hpart, rfl⟩ := List.mem_map.1 ht
  rw [String.toList_ofList] at hc
  exact mem_of_mem_splitOn hpart (Text.mem_of_mem_trim hc)

/-- The tokens of a placeholder are made of the characters of its body. -/
theorem Placeholder.mem_body_of_mem_tokens {p : Placeholder} {t : String} (ht : t ∈ p.tokens)
    {c : Char} (hc : c ∈ t.toList) : c ∈ p.body :=
  mem_of_mem_tokensOf ht hc

/-- No token of a placeholder has a placeholder. -/
theorem Placeholder.WellFormed.not_hasPlaceholder_of_mem_tokens {p : Placeholder}
    (h : p.WellFormed) {t : String} (ht : t ∈ p.tokens) : hasPlaceholder t.toList = false :=
  not_hasPlaceholder_of_brace fun hc =>
    h.brace_notMem_body (Placeholder.mem_body_of_mem_tokens ht hc)

end Template

end LayeredConfig
