import Lifted.Proofs.Canonical.Outcome
import Lifted.Proofs.Evaluation.Calls
import Lifted.Proofs.Evaluation.Denotation

/-!
# What a ranking asks the evaluator

A ranking evaluates all trees of a batch and then, at every placeholder, the nodes above it. The
trees leave all nodes in the memo, so nothing is left to ask by then: a ranking that succeeds asks
for the value of every node of the batch once.

* `Spends.occurrences`: what a ranking asks, and that it leaves all trees in the memo.
* `rank_ends_of_does`: the ranking is that of the occurrences found so.
* `asked_once`: a memo keeps its entries and is never asked for one twice.
-/

namespace Lifted

variable {valueOf : (node : Expr) → (values : List UInt64) → Except Error UInt64} {M M' : Memo}
  {t : Tagged} {calls : List Call}

/-- All questions of a ranking are about nodes of the batch. -/
theorem Spends.occurrences (valueOf : (node : Expr) → (values : List UInt64) → Except Error UInt64)
    (t : Tagged) (M : Memo) :
    Spends valueOf (· ∈ Expr.nodesOf t.trees) M (occurrences (logged valueOf) t)
      (occurrences valueOf t) fun _ M' => ∀ e ∈ t.trees, e.id ∈ M' := by
  have down : ∀ x, x ∈ Expr.nodesOf t.trees → ∀ c ∈ x.children, c ∈ Expr.nodesOf t.trees := by
    intro x hx c hc
    obtain ⟨e, he, hx⟩ := Expr.mem_nodesOf.mp hx
    exact Expr.mem_nodesOf.mpr ⟨e, he, Expr.child_mem_nodes hx c hc⟩
  have node : ∀ e ∈ t.trees, ∀ x ∈ e.nodes, x ∈ Expr.nodesOf t.trees := fun e he x hx =>
    Expr.mem_nodesOf.mpr ⟨e, he, hx⟩
  unfold Lifted.occurrences
  refine (Spends.forM (Q := fun e M' => e.id ∈ M') (fun _ _ _ le there => le.mem there)
    (fun e he M => ?_) M).bind fun _ M₁ _ trees => ?_
  · refine (Spends.solve down (node e he e e.self_mem_nodes) M).bind fun v M' _ entry => ?_
    exact .pure (Memo.mem_of_entry entry)
  · refine (Spends.mapM (fun a ha M => ?_) M₁).imp fun _ M' le _ e he => le.mem (trees e he)
    refine (Spends.mapM (fun x hx M => ?_) M).bind fun _ _ _ _ => .pure trivial
    obtain ⟨e, he, hp⟩ := List.mem_flatMap.mp (mem_placements ha)
    refine (Spends.solve down (node e he x ?_) M).imp fun _ _ _ _ => trivial
    exact Expr.mem_nodes_of_mem_path hp hx

/-- A ranking ends with what its occurrences come to. -/
theorem rank_ends_of_does {evaluator : Evaluator} {b : Bindings} {s : Supply} {j : Journal}
    {r : Except Error (List (Population × Occurrence))}
    (does : Does (occurrences (logged (evaluator.onNode b)) t) (occurrences (evaluator.onNode b) t)
      ∅ r M' calls) :
    (rank evaluator b t).Ends s j fun r' _ _ => r' = r.map (Ranking.ofOccurrences t) := by
  unfold rank
  show ((liftM (Memo.run ∅ (occurrences (m := Id) (evaluator.onNode b) t)).1 : Run _) >>=
    fun found => _).Ends s j _
  rw [does.plain]
  refine Run.Ends.bind (Run.Ends.lift ?_)
  cases r with
  | error err => exact rfl
  | ok found =>
    exact Run.Ends.bind (Run.Ends.notes (Run.Ends.bind (Run.Ends.note
      (Run.Ends.bind (Run.Ends.notes (Run.Ends.pure rfl))))))

/-- The ranking of `t` that found `found` asked for every node of the batch once. -/
structure RankedBy (evaluator : Evaluator) (b : Bindings) (t : Tagged)
    (found : List (Population × Occurrence)) (M : Memo) (calls : List Call) : Prop where
  does : Does (occurrences (logged (evaluator.onNode b)) t) (occurrences (evaluator.onNode b) t) ∅
    (.ok found) M calls
  once : (calls.map (·.1.id)).Nodup
  each : ∀ x, x ∈ calls.map Prod.fst ↔ x ∈ Expr.nodesOf t.trees

theorem exists_rankedBy {evaluator : Evaluator} {b : Bindings} {s : Supply}
    (coherent : Expr.Coherent t.trees) {ranking : Ranking}
    (done : (rank evaluator b t).outcome s = .ok ranking) :
    ∃ found M calls, ranking = Ranking.ofOccurrences t found ∧
      RankedBy evaluator b t found M calls := by
  obtain ⟨r, M, calls, does, made⟩ := Spends.occurrences (evaluator.onNode b) t ∅
  have ends : (rank evaluator b t).outcome s = r.map (Ranking.ofOccurrences t) :=
    rank_ends_of_does does
  rw [ends] at done
  cases r with
  | error err => cases done
  | ok found =>
    obtain ⟨adds, trees⟩ := made
    have grown := adds.grown coherent (Memo.grown_empty _)
    refine ⟨found, M, calls, (Except.ok.inj done).symm, does, adds.nodup, fun x => ⟨fun h => ?_,
      fun hx => ?_⟩⟩
    · obtain ⟨call, hc, rfl⟩ := List.mem_map.mp h
      exact adds.among call hc
    · obtain ⟨e, he, hx'⟩ := Expr.mem_nodesOf.mp hx
      have root : e ∈ Expr.nodesOf t.trees := Expr.mem_nodesOf.mpr ⟨e, he, e.self_mem_nodes⟩
      have there := grown.below e root (trees e he) x hx'
      obtain ⟨call, hc, same⟩ :=
        List.mem_map.mp ((adds.mem_calls_iff x.id).mpr ⟨there, by simp⟩)
      rw [← coherent call.1 (adds.among call hc) x hx same]
      exact List.mem_map_of_mem hc

/-- Whatever trees are evaluated one after the other, sharing nodes and failing or not, the memo has
with a node all nodes below it, and the value of a node is what the evaluator yields on the values
of its children. Each evaluation keeps what there was, enters all nodes of its tree if it succeeds,
and asks the evaluator once for each node that it enters and once for the one that fails. A ranking
of a tagged batch that succeeds asks once for each node of the batch. -/
theorem asked_once (evaluator : Evaluator) (b : Bindings) :
    (∀ es, Expr.Coherent es →
      (Memo.after (evaluator.onNode b) ∅ es).Grown (evaluator.onNode b) es ∧
      ∀ before e more, es = before ++ e :: more →
        (∃ r calls, Asked (evaluator.onNode b) (Memo.after (evaluator.onNode b) ∅ before) e r
          (Memo.after (evaluator.onNode b) ∅ (before ++ [e])) calls) ∧
        Memo.Le (Memo.after (evaluator.onNode b) ∅ before)
          (Memo.after (evaluator.onNode b) ∅ es)) ∧
    ∀ (R : Registers) (I : ImageQueries) (o : Options) (es : List Expr) (s : Supply) (t : Tagged),
      s.Serves es → (tag R I o es).outcome s = .ok t →
      ∀ s' ranking, (rank evaluator b t).outcome s' = .ok ranking →
        ∃ found M calls, ranking = Ranking.ofOccurrences t found ∧
          RankedBy evaluator b t found M calls := by
  refine ⟨fun es coherent => ⟨Memo.grown_after coherent, ?_⟩, ?_⟩
  · rintro before e more rfl
    have start : (Memo.after (evaluator.onNode b) ∅ before).Grown (evaluator.onNode b) before :=
      Memo.grown_after coherent.left
    have grown := start.mono coherent fun x hx => Expr.mem_nodesOf_append.mpr (.inl hx)
    obtain ⟨r, M', calls, asked, -⟩ := exists_asked coherent (e := e) (by simp) grown
    refine ⟨⟨r, calls, ?_⟩, ?_⟩
    · rw [Memo.after_concat, asked.does.plain]
      exact asked
    · rw [Memo.after_append]
      exact Memo.le_after _ _
  · intro R I o es s t serves tagging s' ranking done
    exact exists_rankedBy (tag_coherent serves.coherent serves.below t tagging) done

namespace Sample

theorem coherent_sequence : Expr.Coherent [diamond, surplus, diamond] := by
  refine coherent_surplus.mono fun x hx => ?_
  have below : ∀ y ∈ diamond.nodes, y ∈ surplus.nodes := fun y hy =>
    Expr.mem_nodes_of_child (by simp [surplus, Expr.children]) hy
  simp only [Expr.nodesOf_cons, Expr.nodesOf_nil, List.append_nil, List.mem_append] at hx ⊢
  rcases hx with hx | hx | hx
  · exact below x hx
  · exact hx
  · exact below x hx

/-- The number of bytes as a value, where nothing has a value of its own. -/
def counted : Expr → List UInt64 → Except Error UInt64 := (byteCount false).evaluator.onNode .empty

end Sample

/-- The second tree of three has the first one below it and has no value itself. -/
theorem asked_once_sample :
    (∃ calls, Asked Sample.counted (Memo.after Sample.counted ∅ [Sample.diamond]) Sample.surplus
      (.error (.malformed (.valueCount .div 3)))
      (Memo.after Sample.counted ∅ [Sample.diamond, Sample.surplus]) calls ∧
      calls.map (·.1.id) = [6, 5]) ∧
    ∃ t ranking found M calls,
      (tag Sample.collaborators.registers Sample.collaborators.image Sample.options
        Sample.batch).outcome (Supply.startingAt 5) = .ok t ∧
      (rank Sample.collaborators.evaluator Sample.bindings t).outcome (Supply.startingAt 5) =
        .ok ranking ∧
      RankedBy Sample.collaborators.evaluator Sample.bindings t found M calls := by
  constructor
  · obtain ⟨sequence, -⟩ := asked_once (Sample.byteCount false).evaluator .empty
    obtain ⟨-, each⟩ := sequence _ Sample.coherent_sequence
    obtain ⟨⟨r, calls, asked⟩, -⟩ := each [Sample.diamond] Sample.surplus [Sample.diamond] rfl
    have fails : (Memo.run (Memo.after Sample.counted ∅ [Sample.diamond])
        (solve (m := Id) Sample.counted Sample.surplus)).1 =
          .error (.malformed (.valueCount .div 3)) := by cbv
    have ids : (((ExceptT.run (solve (logged Sample.counted) Sample.surplus)).run
        (Memo.after Sample.counted ∅ [Sample.diamond])).run []).2.map (fun call => call.1.id) =
          [6, 5] := by cbv
    change Asked Sample.counted (Memo.after Sample.counted ∅ [Sample.diamond]) _ r
      (Memo.after Sample.counted ∅ [Sample.diamond, Sample.surplus]) calls at asked
    rw [asked.does.plain] at fails
    rw [asked.does.logged] at ids
    subst fails
    exact ⟨calls, asked, ids⟩
  · obtain ⟨-, ranks⟩ := asked_once Sample.collaborators.evaluator Sample.bindings
    have runs : ((tag Sample.collaborators.registers Sample.collaborators.image Sample.options
        Sample.batch).outcome (Supply.startingAt 5)).toOption.map (fun t =>
          ((rank Sample.collaborators.evaluator Sample.bindings t).outcome
            (Supply.startingAt 5)).toOption.map fun ranking => ranking.registers.length) =
        some (some 2) := by cbv
    obtain ⟨t, tagging, runs⟩ := exists_ok_of_map_eq runs
    obtain ⟨ranking, done, -⟩ := exists_ok_of_map_eq runs
    obtain ⟨found, M, calls, -, ranked⟩ := ranks _ _ _ _ _ t Sample.serves_batch tagging _ _ done
    exact ⟨t, ranking, found, M, calls, tagging, done, ranked⟩

end Lifted
