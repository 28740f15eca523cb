import BatchSystem.Core.LTS

/-!
# Purged runs

Some steps of a system concern an observer, the others are hidden from it. If
the hidden steps do not change what the observer can tell, and each of the
others can be taken from every state that looks alike to it, then the hidden
steps may be left out of a run: what remains is a run that ends alike
(`Unwinds.purge`).
-/
namespace BatchSystem.Core.LTS

variable {S L : Type} {M : LTS S L} {shown : S → L → Bool} {Alike : S → S → Prop}

/-- The conditions on one step. -/
structure Unwinds (M : LTS S L) (shown : S → L → Bool) (Alike : S → S → Prop) : Prop where
  init : ∀ s, M.init s → ∃ s', M.init s' ∧ Alike s s'
  hidden : ∀ {s l v s'}, M.Reachable s → M.step s l v → shown s l = false → Alike s s' → Alike v s'
  shown : ∀ {s l v s'}, M.Reachable s → M.Reachable s' → M.step s l v → shown s l = true →
    Alike s s' → ∃ v', M.step s' l v' ∧ Alike v v'

/-- **Purging.** The shown steps of a run, in their order, are a run. -/
theorem Unwinds.purge (h : M.Unwinds shown Alike) {tr : List (Trans S L)} {s : S}
    (hr : M.Run tr s) : ∃ tr' s', M.Run tr' s' ∧ Alike s s' ∧
      tr'.map Trans.lbl = (tr.filter fun t => shown t.pre t.lbl).map Trans.lbl := by
  refine hr.induct (P := fun tr s => ∃ tr' s', M.Run tr' s' ∧ Alike s s' ∧
    tr'.map Trans.lbl = (tr.filter fun t => shown t.pre t.lbl).map Trans.lbl) ?_ ?_
  · intro s hs
    obtain ⟨s', hs', ha⟩ := h.init s hs
    exact ⟨[], s', .nil hs', ha, rfl⟩
  · intro tr s l v hr ih hst
    obtain ⟨tr', s', hr', ha, hl⟩ := ih
    cases hc : shown s l with
    | false =>
      refine ⟨tr', s', hr', h.hidden hr.reachable hst hc ha, ?_⟩
      rw [hl, List.filter_append, List.filter_cons_of_neg (by simp [hc]), List.filter_nil,
        List.append_nil]
    | true =>
      obtain ⟨v', hst', ha'⟩ := h.shown hr.reachable hr'.reachable hst hc ha
      refine ⟨_, v', hr'.snoc hst', ha', ?_⟩
      rw [List.filter_append, List.filter_cons_of_pos (by simp [hc]), List.filter_nil,
        List.map_append, List.map_append, hl]
      rfl

end BatchSystem.Core.LTS
