import Mathlib
import Interpolation.Proofs.Document.WellFormed
import Interpolation.Proofs.Expression.Dependence

/-!
# What the search under a prefix overlooks

With a name `s` for a prefix, an expression is searched for the keys that it reads right below `s`.
The search looks at the right side of a dot if the left side has the root name `s`. It does not look
for dots within the left side: in `(s.k).j` the key `k` is read below `s`, but `j` is listed.

So the list can miss keys, and it is a safe one only if the keys that it misses do not matter.
`keysBelow` is a list that misses none: an object below `s` gets to a dot by being the value of the
left side, and which left sides can have it for a value is told by `handsOn`.
-/

namespace Interpolation

open Document

namespace Tree

/-! ## The keys read below a name -/

/-- The root names whose objects the value of a tree can be. As an object counts as true, it is
never the left side of `&&` that gives it. -/
def handsOn : Tree → List String
  | name s => [s]
  | quoted _ => []
  | group t => t.handsOn
  | join .dot _ _ => []
  | join .or l r => l.handsOn ++ r.handsOn
  | join .and _ r => r.handsOn

/-- The keys that a tree can read right below the object of a root name. -/
def keysBelow (s : String) : Tree → List String
  | name _ => []
  | quoted _ => []
  | group t => t.keysBelow s
  | join .dot l r => l.keysBelow s ++ if s ∈ l.handsOn then r.rootNames else []
  | join _ l r => l.keysBelow s ++ r.keysBelow s

/-- The keys among them that are not listed under the prefix. -/
def overlooked (s : String) (t : Tree) : List String :=
  (t.keysBelow s).filter (· ∉ t.names [s])

theorem mem_overlooked_iff {s k : String} {t : Tree} :
    k ∈ t.overlooked s ↔ k ∈ t.keysBelow s ∧ k ∉ t.names [s] := by
  rw [overlooked, List.mem_filter, decide_eq_true_iff]

variable {s : String} {t : Tree} {fs gs os ps : List (String × Document)}

/-- How two evaluations may differ in contexts with different objects `os` and `ps` below a name:
only in handing on these objects, which lie at the same place. -/
inductive Parallel (hand : Prop) (os ps : List (String × Document)) :
    Except EvaluationError Resolved → Except EvaluationError Resolved → Prop where
  | same (answer : Except EvaluationError Resolved) : Parallel hand os ps answer answer
  | apart (h : hand) (path : List String) :
      Parallel hand os ps (.ok ⟨.document (.object os), path⟩) (.ok ⟨.document (.object ps), path⟩)

theorem Parallel.mono {hand hand' : Prop} (h : hand → hand')
    {a b : Except EvaluationError Resolved} (hab : Parallel hand os ps a b) :
    Parallel hand' os ps a b := by
  cases hab with
  | same => exact .same a
  | apart hh path => exact .apart (h hh) path

/-- Evaluations that may differ go on to evaluations that may differ, if those from the same result
and those from the two objects do. -/
theorem Parallel.bind {hand hand' : Prop} {a b : Except EvaluationError Resolved}
    {f g : Resolved → Except EvaluationError Resolved} (hab : Parallel hand os ps a b)
    (hsame : ∀ r, Parallel hand' os ps (f r) (g r))
    (hapart : ∀ path, hand → Parallel hand' os ps (f ⟨.document (.object os), path⟩)
      (g ⟨.document (.object ps), path⟩)) :
    Parallel hand' os ps (a.bind f) (b.bind g) := by
  cases hab with
  | same =>
    rcases a with e | r
    · exact .same _
    · exact hsame r
  | apart hand path => exact hapart path hand

/-- **The keys below a name are all that is read there.** -/
theorem evaluate_parallel (path : List String)
    (helse : ∀ n, n ≠ s → fs.lookup n = gs.lookup n)
    (hfs : fs.lookup s = some (.object os)) (hgs : gs.lookup s = some (.object ps))
    (hkeys : ∀ k ∈ t.keysBelow s, os.lookup k = ps.lookup k) :
    Parallel (s ∈ t.handsOn) os ps (t.evaluate (.document (.object fs)) path)
      (t.evaluate (.document (.object gs)) path) := by
  induction t generalizing path with
  | name n =>
    by_cases hn : n = s
    · subst hn
      rw [evaluate_name_of_lookup hfs, evaluate_name_of_lookup hgs]
      exact .apart List.mem_cons_self _
    · have hsame : (name n).evaluate (.document (.object fs)) path =
          (name n).evaluate (.document (.object gs)) path := by
        rw [evaluate, evaluate]
        exact evaluateName_congr rfl (helse n hn)
      rw [hsame]
      exact .same _
  | quoted n => exact .same _
  | group t ih => exact ih path hkeys
  | join c l r ihl ihr =>
    have hl := ihl path fun k hk ↦ hkeys k (by cases c <;> exact List.mem_append_left _ hk)
    cases c with
    | dot =>
      rw [evaluate_dot, evaluate_dot]
      refine hl.bind (fun base ↦ .same _) fun path hand ↦ ?_
      -- The right side of the dot reads its root names from the two objects.
      have hr : r.evaluate (.document (.object os)) path =
          r.evaluate (.document (.object ps)) path := by
        refine evaluate_congr path fun k hk ↦ hkeys k (List.mem_append_right _ ?_)
        rwa [if_pos hand]
      simp only [hr]
      exact .same _
    | or =>
      have hr := ihr path fun k hk ↦ hkeys k (List.mem_append_right _ hk)
      rw [evaluate_or, evaluate_or]
      -- Objects count as true, so the left side is kept in both runs.
      refine hl.bind (fun left ↦ ?_) fun path hand ↦ .apart (List.mem_append_left _ hand) path
      by_cases ht : left.value.isTruthy
      · simp only [if_pos ht]
        exact .same _
      · simp only [if_neg ht]
        exact hr.mono (List.mem_append_right _)
    | and =>
      have hr := ihr path fun k hk ↦ hkeys k (List.mem_append_right _ hk)
      rw [evaluate_and, evaluate_and]
      refine hl.bind (fun left ↦ ?_) fun _ _ ↦ hr
      by_cases ht : left.value.isTruthy
      · simp only [if_pos ht]
        exact hr
      · simp only [if_neg ht]
        exact .same _

end Tree

namespace Expression

variable {e : Expression} {s k : String} {fs gs os ps : List (String × Document)}

/-- Two contexts that agree on every name but `s`, and have the objects `os` and `ps` there. -/
structure DifferBelow (s : String) (fs gs os ps : List (String × Document)) : Prop where
  wellFormed_left : (object fs).WellFormed
  wellFormed_right : (object gs).WellFormed
  elsewhere : ∀ n, n ≠ s → AgreeOn n fs gs
  left : fs.lookup s = some (object os)
  right : gs.lookup s = some (object ps)

/-- The list of names under the prefix `s` is a safe one: objects below `s` that agree on them lead
to the same text or to the same error. -/
def MissesNothing (e : Expression) (s : String) : Prop :=
  ∀ fs gs os ps, DifferBelow s fs gs os ps → (∀ k ∈ e.names [s], AgreeOn k os ps) →
    e.render (object fs) = e.render (object gs)

/-- The key `k` below `s` does not matter: objects that differ there only lead to the same text or
to the same error. -/
def Ignores (e : Expression) (s k : String) : Prop :=
  ∀ fs gs os ps, DifferBelow s fs gs os ps → (∀ j, j ≠ k → AgreeOn j os ps) →
    e.render (object fs) = e.render (object gs)

/-! ## From one key to several -/

theorem render_eq_of_parallel {hand : Prop} {c c' : Document}
    (h : Tree.Parallel hand os ps (e.resolve c) (e.resolve c')) : e.render c = e.render c' := by
  rw [render, render]
  generalize e.resolve c = a at h
  generalize e.resolve c' = b at h
  cases h with
  | same => rfl
  | apart => rfl

/-- Objects that agree on the keys below `s` lead to the same text. -/
theorem render_congr_below (h : DifferBelow s fs gs os ps)
    (hkeys : ∀ k ∈ e.tree.keysBelow s, AgreeOn k os ps) :
    e.render (object fs) = e.render (object gs) := by
  have hleft : (unsignedFields fs).lookup s = some (object (unsignedFields os)) := by
    rw [lookup_unsignedFields, h.left, Option.map_some, unsigned]
  have hright : (unsignedFields gs).lookup s = some (object (unsignedFields ps)) := by
    rw [lookup_unsignedFields, h.right, Option.map_some, unsigned]
  rw [← render_unsigned, ← e.render_unsigned (object gs), unsigned, unsigned]
  refine render_eq_of_parallel (Tree.evaluate_parallel [] ?_ hleft hright ?_)
  · exact fun n hn ↦ agreeOn_iff.mp (h.elsewhere n hn)
  · exact fun k hk ↦ agreeOn_iff.mp (hkeys k hk)

theorem DifferBelow.object_left (h : DifferBelow s fs gs os ps) : (object os).WellFormed := by
  have hchild : (object fs).child? (.key s) = some (object os) := h.left
  exact h.wellFormed_left.child hchild

theorem DifferBelow.object_right (h : DifferBelow s fs gs os ps) : (object ps).WellFormed := by
  have hchild : (object gs).child? (.key s) = some (object ps) := h.right
  exact h.wellFormed_right.child hchild

/-- Between two contexts there is the one that takes over the key `k` below `s`. -/
theorem DifferBelow.between (h : DifferBelow s fs gs os ps) (k : String) :
    ∃ hs qs, DifferBelow s fs hs os qs ∧ DifferBelow s hs gs qs ps ∧
      ∀ j, qs.lookup j = if j = k then ps.lookup j else os.lookup j := by
  have hqs : (object (takeField k ps os)).WellFormed :=
    wellFormed_takeField h.object_left h.object_right
  have hhs : (object (insertField s (object (takeField k ps os)) fs)).WellFormed :=
    wellFormed_insertField h.wellFormed_left hqs
  have hlookup : ∀ n, n ≠ s →
      (insertField s (object (takeField k ps os)) fs).lookup n = fs.lookup n := by
    intro n hn
    rw [lookup_insertField, if_neg hn]
  have hmid : (insertField s (object (takeField k ps os)) fs).lookup s =
      some (object (takeField k ps os)) := by
    rw [lookup_insertField, if_pos rfl]
  refine ⟨_, takeField k ps os, ⟨h.wellFormed_left, hhs, ?_, h.left, hmid⟩,
    ⟨hhs, h.wellFormed_right, ?_, hmid, h.right⟩, fun j ↦ lookup_takeField k j ps os⟩
  · intro n hn
    rw [AgreeOn, hlookup n hn]
  · intro n hn
    rw [AgreeOn, hlookup n hn]
    exact h.elsewhere n hn

/-- If the keys on which two objects disagree do not matter one by one, then they do not matter
together. -/
theorem render_congr_of_ignores {keys : List String} (hkeys : ∀ k ∈ keys, e.Ignores s k)
    (h : DifferBelow s fs gs os ps)
    (agree : ∀ j ∈ e.tree.keysBelow s, j ∈ keys ∨ AgreeOn j os ps) :
    e.render (object fs) = e.render (object gs) := by
  induction keys generalizing fs os with
  | nil => exact render_congr_below h fun j hj ↦ (agree j hj).resolve_left List.not_mem_nil
  | cons k keys ih =>
    obtain ⟨hs, qs, hfirst, hrest, hqs⟩ := h.between k
    have hstep : e.render (object fs) = e.render (object hs) := by
      refine hkeys k List.mem_cons_self fs hs os qs hfirst fun j hj ↦ ?_
      rw [AgreeOn, hqs, if_neg hj]
    rw [hstep]
    refine ih (fun j hj ↦ hkeys j (List.mem_cons_of_mem _ hj)) hrest fun j hj ↦ ?_
    by_cases hjk : j = k
    · refine .inr ?_
      rw [AgreeOn, hqs, if_pos hjk]
    · refine (agree j hj).imp (fun hmem ↦ ?_) fun hagree ↦ ?_
      · exact (List.mem_cons.mp hmem).resolve_left hjk
      · rwa [AgreeOn, hqs, if_neg hjk]

theorem missesNothing_iff_ignores :
    e.MissesNothing s ↔ ∀ k ∈ e.tree.overlooked s, e.Ignores s k := by
  constructor
  · intro h k hk fs gs os ps hdiff agree
    refine h fs gs os ps hdiff fun j hj ↦ agree j ?_
    rintro rfl
    exact (Tree.mem_overlooked_iff.mp hk).2 (mem_distinct.mp hj)
  · intro h fs gs os ps hdiff agree
    refine render_congr_of_ignores h hdiff fun j hj ↦ ?_
    by_cases hn : j ∈ e.tree.names [s]
    · exact .inr (agree j (mem_distinct.mpr hn))
    · exact .inl (Tree.mem_overlooked_iff.mpr ⟨hj, hn⟩)

end Expression

/-! ## Chains of names -/

namespace Tree

/-- A tree without literals and alternatives: it reads one name after another. -/
inductive IsChain : Tree → Prop where
  | name (s : String) : IsChain (name s)
  | group {t : Tree} (h : IsChain t) : IsChain (group t)
  | dot {l r : Tree} (hl : IsChain l) (hr : IsChain r) : IsChain (join .dot l r)

/-- The names of a tree in reading order. -/
def leaves : Tree → List String
  | name s => [s]
  | quoted _ => []
  | group t => t.leaves
  | join _ l r => l.leaves ++ r.leaves

/-- The document with `d` at the end of a chain of names. -/
def nest : List String → Document → Document
  | [], d => d
  | n :: ns, d => object [(n, nest ns d)]

variable {s k : String} {t : Tree}

theorem wellFormed_nest {d : Document} (hd : d.WellFormed) (ns : List String) :
    (nest ns d).WellFormed := by
  induction ns with
  | nil => exact hd
  | cons n ns ih =>
    refine .object (by simp) fun f hf ↦ ?_
    rw [List.mem_singleton.mp hf]
    exact ih

/-- A chain goes down a nest along its own names. -/
theorem evaluate_nest (ht : t.IsChain) (d : Document) (more path : List String) :
    t.evaluate (.document (nest (t.leaves ++ more) d)) path =
      .ok ⟨.document (nest more d), path ++ t.leaves⟩ := by
  induction ht generalizing more path with
  | name n =>
    have hlookup : [(n, nest more d)].lookup n = some (nest more d) := by
      rw [lookup_cons_eq, if_pos rfl]
    exact evaluate_name_of_lookup hlookup path
  | group _ ih => exact ih more path
  | dot _ _ ihl ihr =>
    rw [evaluate, leaves, List.append_assoc, ihl]
    simp only [ihr, List.append_assoc]

theorem leaves_of_mem_rootNames (ht : t.IsChain) (h : k ∈ t.rootNames) :
    ∃ more, t.leaves = k :: more := by
  induction ht with
  | name n => exact ⟨[], by rw [List.mem_singleton.mp h, leaves]⟩
  | group _ ih => exact ih h
  | @dot l r _ _ ihl _ =>
    obtain ⟨more, hmore⟩ := ihl h
    exact ⟨more ++ r.leaves, by rw [leaves, hmore, List.cons_append]⟩

theorem leaves_of_mem_handsOn (ht : t.IsChain) (h : s ∈ t.handsOn) : t.leaves = [s] := by
  induction ht with
  | name n => rw [List.mem_singleton.mp h, leaves]
  | group _ ih => exact ih h
  | dot => exact absurd h List.not_mem_nil

/-- A chain reads at most one key below `s`, its second name. -/
theorem leaves_of_mem_keysBelow (ht : t.IsChain) (h : k ∈ t.keysBelow s) :
    ∃ more, t.leaves = s :: k :: more := by
  induction ht with
  | name n => exact absurd h List.not_mem_nil
  | group _ ih => exact ih h
  | @dot l r hl hr ihl _ =>
    rcases List.mem_append.mp h with hbase | hkey
    · obtain ⟨more, hmore⟩ := ihl hbase
      exact ⟨more ++ r.leaves, by rw [leaves, hmore, List.cons_append, List.cons_append]⟩
    · by_cases hand : s ∈ l.handsOn
      · rw [if_pos hand] at hkey
        obtain ⟨more, hmore⟩ := leaves_of_mem_rootNames hr hkey
        refine ⟨more, ?_⟩
        rw [leaves, leaves_of_mem_handsOn hl hand, hmore, List.singleton_append]
      · rw [if_neg hand] at hkey
        exact absurd hkey List.not_mem_nil

end Tree

namespace Expression

variable {e : Expression} {s k : String}

theorem render_nest (he : e.tree.IsChain) (text : String) :
    e.render (Tree.nest e.tree.leaves (string text)) = .ok text := by
  have h := Tree.evaluate_nest he (string text) [] []
  rw [List.append_nil] at h
  rw [render, resolve, h]
  rfl

/-- In a chain, the key that is read below `s` matters. -/
theorem mem_names_of_missesNothing (he : e.tree.IsChain) (h : e.MissesNothing s)
    (hk : k ∈ e.tree.keysBelow s) : k ∈ e.tree.names [s] := by
  refine Decidable.byContradiction fun hmissed ↦ ?_
  obtain ⟨more, hleaves⟩ := Tree.leaves_of_mem_keysBelow he hk
  have hwf : ∀ text, (Tree.nest (s :: k :: more) (string text)).WellFormed :=
    fun text ↦ Tree.wellFormed_nest (.string text) _
  have hlookup : ∀ text, [(s, Tree.nest (k :: more) (string text))].lookup s =
      some (Tree.nest (k :: more) (string text)) := by
    intro text
    rw [lookup_cons_eq, if_pos rfl]
  -- Both objects below `s` have the key `k` only, which is not listed.
  have hrender := h _ _ _ _ ⟨hwf "1", hwf "2", ?_, hlookup "1", hlookup "2"⟩ ?_
  · have hone := render_nest he "1"
    have htwo := render_nest he "2"
    rw [hleaves] at hone htwo
    have heq := hone.symm.trans (hrender.trans htwo)
    exact absurd heq (by simp)
  · intro n hn
    rw [AgreeOn, lookup_cons_eq, lookup_cons_eq, if_neg hn, if_neg hn]
  · intro j hj
    have hjk : j ≠ k := by
      rintro rfl
      exact hmissed (mem_distinct.mp hj)
    rw [AgreeOn, lookup_cons_eq, lookup_cons_eq, if_neg hjk, if_neg hjk]

/-- **When the list is a safe one.** The names under a prefix miss nothing just if the keys that the
search overlooks do not matter. There must be none in a chain of names. -/
theorem missesNothing_iff (e : Expression) (s : String) :
    (e.MissesNothing s ↔ ∀ k ∈ e.tree.overlooked s, e.Ignores s k) ∧
      (e.tree.IsChain → (e.MissesNothing s ↔ e.tree.overlooked s = [])) := by
  refine ⟨missesNothing_iff_ignores, fun he ↦ ⟨fun h ↦ ?_, fun h ↦ ?_⟩⟩
  · refine List.filter_eq_nil_iff.mpr fun k hk ↦ ?_
    simpa using mem_names_of_missesNothing he h hk
  · refine missesNothing_iff_ignores.mpr fun k hk ↦ ?_
    rw [h] at hk
    exact absurd hk List.not_mem_nil

set_option maxRecDepth 2000 in
/-- In `(s.k).j` the key `k` is read below `s`, but `j` is listed. -/
theorem not_missesNothing_of_access_in_group :
    ∃ e, Expression.ofString "(s.k).j" = .ok e ∧ ¬ e.MissesNothing "s" := by
  refine ⟨⟨.join .dot (.group (.join .dot (.name "s") (.name "k"))) (.name "j"), "(s.k).j"⟩,
    by cbv, fun h ↦ ?_⟩
  have hwf : ∀ text, (Tree.nest ["s", "k", "j"] (string text)).WellFormed :=
    fun text ↦ Tree.wellFormed_nest (.string text) _
  have hrender := h [("s", Tree.nest ["k", "j"] (string "1"))]
    [("s", Tree.nest ["k", "j"] (string "2"))] _ _ ⟨hwf "1", hwf "2", ?_, rfl, rfl⟩ ?_
  · have hvalues : (.ok "1" : Except EvaluationError String) = .ok "2" := hrender
    exact absurd (Except.ok.inj hvalues) (by decide)
  · intro n hn
    rw [AgreeOn, lookup_cons_eq, lookup_cons_eq, if_neg hn, if_neg hn]
  · intro k hk
    rw [List.mem_singleton.mp hk]
    rfl

end Expression

end Interpolation
