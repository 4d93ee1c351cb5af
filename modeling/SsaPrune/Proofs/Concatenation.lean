import SsaPrune.Proofs.Pipeline
import SsaPrune.Proofs.Text.Declarations
import SsaPrune.Proofs.Text.Replacement

/-!
# Modules one behind the other

The functions of a module do not influence one another. Two texts that can be read are read together
when a line end stands between them, unless a name occurs in both, and the functions are those of the
first text and those of the second. So what is done with each function is the same as well.
-/

namespace SsaPrune

namespace Source

theorem map_name_of_resolveAll {seen : List String} {sources : List Function}
    {fs : List SsaPrune.Function} (h : resolveAll seen sources = .ok fs) :
    fs.map (·.name) = sources.map (·.name) :=
  Function.map_eq_of_forall₂ (fun _ _ hf => hf.name) (spells_of_resolveAll h).2

/-- Functions of two modules can be put into one unless a name occurs in both. -/
theorem resolveAll_append {sources more : List Function} {fs gs : List SsaPrune.Function}
    (hs : resolveAll [] sources = .ok fs) (hm : resolveAll [] more = .ok gs)
    (hnames : ∀ f ∈ fs, ∀ g ∈ gs, f.name ≠ g.name) :
    resolveAll [] (sources ++ more) = .ok (fs ++ gs) := by
  obtain ⟨hnodup, -, hresolve⟩ := resolveAll_eq_ok_iff.mp hs
  obtain ⟨hnodup', -, hresolve'⟩ := resolveAll_eq_ok_iff.mp hm
  refine resolveAll_eq_ok_iff.mpr ⟨?_, by simp, List.rel_append hresolve hresolve'⟩
  rw [List.map_append]
  refine List.nodup_append.mpr ⟨hnodup, hnodup', ?_⟩
  rw [← map_name_of_resolveAll hs, ← map_name_of_resolveAll hm]
  intro n hn n' hn' heq
  obtain ⟨f, hf, rfl⟩ := List.mem_map.mp hn
  obtain ⟨g, hg, rfl⟩ := List.mem_map.mp hn'
  exact hnames f hf g hg heq

end Source

variable {t₁ t₂ : String} {fs₁ fs₂ : List Function}

theorem parseModule_append (h₁ : parseModule t₁ = .ok fs₁) (h₂ : parseModule t₂ = .ok fs₂)
    (hnames : ∀ f ∈ fs₁, ∀ g ∈ fs₂, f.name ≠ g.name) :
    parseModule (t₁ ++ "\n" ++ t₂) = .ok (fs₁ ++ fs₂) := by
  obtain ⟨sources, u, hread₁, hall₁⟩ := parseModule_eq_ok.mp h₁
  obtain ⟨more, r, hread₂, hall₂⟩ := parseModule_eq_ok.mp h₂
  obtain ⟨sources', hbare, hread⟩ := Source.readModule_append hread₁ hread₂
  have htext : (t₁ ++ "\n" ++ t₂).toList = t₁.toList ++ '\n' :: t₂.toList := by simp
  refine parseModule_eq_ok.mpr ⟨sources' ++ more, r, htext ▸ hread, ?_⟩
  exact Source.resolveAll_of_bare (by rw [List.map_append, List.map_append, hbare])
    (Source.resolveAll_append hall₁ hall₂ hnames)

/-- **Functions of a module do not influence one another.** Two texts one behind the other hold the
functions of both, and a run over them does with each function what it does with it in its own text. -/
theorem processModule_append (h₁ : parseModule t₁ = .ok fs₁) (h₂ : parseModule t₂ = .ok fs₂)
    (hnames : ∀ f ∈ fs₁, ∀ g ∈ fs₂, f.name ≠ g.name) :
    parseModule (t₁ ++ "\n" ++ t₂) = .ok (fs₁ ++ fs₂) ∧
    ∀ config ps₁ ps₂, processModule config t₁ = .ok ps₁ → processModule config t₂ = .ok ps₂ →
      processModule config (t₁ ++ "\n" ++ t₂) = .ok (ps₁ ++ ps₂) := by
  have hparse := parseModule_append h₁ h₂ hnames
  refine ⟨hparse, fun config ps₁ ps₂ hp₁ hp₂ => ?_⟩
  obtain ⟨gs₁, hgs₁, hanswers₁⟩ := processModule_eq_ok_iff.mp hp₁
  obtain ⟨gs₂, hgs₂, hanswers₂⟩ := processModule_eq_ok_iff.mp hp₂
  obtain rfl := Except.ok.inj (h₁.symm.trans hgs₁)
  obtain rfl := Except.ok.inj (h₂.symm.trans hgs₂)
  exact processModule_eq_ok_iff.mpr ⟨_, hparse, List.rel_append hanswers₁ hanswers₂⟩

/-- A text that ends with a comment, and has a brace in another one. -/
def commented : String := "func @f(%a) \x7b\n ^in:\n ret %a ; \x7d\n\x7d ; the end"

/-- A text without a label, whose first instruction is dead. -/
def unlabelled : String := "func @g()\x7b%x = copy 1\nret\x7d"

/-- One function of each text; the dead instruction of the second one is taken out in both runs. -/
theorem processModule_append_commented : ∃ f g p q,
    (parseModule commented = .ok [f] ∧ parseModule unlabelled = .ok [g] ∧
      processModule {} commented = .ok [p] ∧ processModule {} unlabelled = .ok [q]) ∧
    (f.name = "f" ∧ g.name = "g" ∧ p.report.elimination = some ⟨0, 1, true⟩ ∧
      q.report.elimination = some ⟨1, 2, true⟩) ∧
    parseModule (commented ++ "\n" ++ unlabelled) = .ok [f, g] ∧
    processModule {} (commented ++ "\n" ++ unlabelled) = .ok [p, q] := by
  have hfirst : Run.yieldsOne (parseModule commented) (fun f => f.name = "f") = true := by
    decide +kernel
  have hsecond : Run.yieldsOne (parseModule unlabelled) (fun g => g.name = "g") = true := by
    decide +kernel
  have hfirstRun : Run.yieldsOne (processModule {} commented)
      (fun p => p.report.elimination = some ⟨0, 1, true⟩) = true := by
    decide +kernel
  have hsecondRun : Run.yieldsOne (processModule {} unlabelled)
      (fun q => q.report.elimination = some ⟨1, 2, true⟩) = true := by
    decide +kernel
  obtain ⟨f, h₁, hf⟩ := Run.exists_of_yieldsOne hfirst
  obtain ⟨g, h₂, hg⟩ := Run.exists_of_yieldsOne hsecond
  obtain ⟨p, hp₁, hp⟩ := Run.exists_of_yieldsOne hfirstRun
  obtain ⟨q, hp₂, hq⟩ := Run.exists_of_yieldsOne hsecondRun
  simp only [decide_eq_true_iff] at hf hg hp hq
  have hnames : ∀ f' ∈ [f], ∀ g' ∈ [g], f'.name ≠ g'.name := by
    simp [hf, hg]
  obtain ⟨hparse, hprocess⟩ := processModule_append h₁ h₂ hnames
  exact ⟨f, g, p, q, ⟨h₁, h₂, hp₁, hp₂⟩, ⟨hf, hg, hp, hq⟩, hparse, hprocess {} [p] [q] hp₁ hp₂⟩

end SsaPrune
