import SelectionPlan.Proofs.Execution.Delivery

/-!
# Executions of a schedule

An execution may realize actions and run its regions in any order and any number of times.  It is
settled all the time.
-/

namespace SelectionPlan
namespace Execution

variable {H ω : Type} {s : Schedule ω} {b : Backend H} {x : Execution H ω} {t : SelectionTree}
  {namer : Namer} {options : BuildOptions} {regions : List (Region ω)}

/-- The executions of a schedule: constructed, then realized and run at will. -/
inductive Reached (s : Schedule ω) (b : Backend H) : Execution H ω → Prop
  | construct (output : ω) : Reached s b (construct s b output)
  | realize {x : Execution H ω} (id : ActionId) : Reached s b x → Reached s b (x.realize id).2
  | run {x : Execution H ω} : Reached s b x → Reached s b x.run.2

theorem Reached.settled (ht : t.Reachable) (hs : Schedule.build t namer options regions = .ok s)
    (hx : Reached s b x) : Settled s b x := by
  obtain ⟨hwired, hready, hall⟩ := Schedule.order_of_build ht hs
  induction hx with
  | construct output => exact .of_constructed (constructed hwired hready b output) hall
  | @realize x id hx ih =>
      cases ha : s.graph.actions[id]? with
      | some a => exact (realize_realizes hwired ha ih).2.1
      | none =>
          rw [realize_of_none (ih.schedule ▸ ha)]
          exact ih
  | run hx ih =>
      obtain ⟨hgraph, -⟩ := Schedule.graph_of_build hs
      obtain ⟨p, accepted, d, -, -, -, -, -, hbuilt⟩ := ActionGraph.built_of_build ht hgraph
      exact (run_spec hwired hbuilt.within ih).2.1

end Execution

/-- Executing a schedule hands over what the results of the actions lead to. -/
theorem Schedule.execute_spec {H ω : Type} {t : SelectionTree} {namer : Namer}
    {options : BuildOptions} {regions : List (Region ω)} {s : Schedule ω} (ht : t.Reachable)
    (hs : Schedule.build t namer options regions = .ok s) (b : Backend H) (output : ω) :
    (s.execute b output).2.written =
        (s.handovers (b.answers s.graph.actions)).map Handover.call ∧
      (s.execute b output).2.output =
        (s.handovers (b.answers s.graph.actions)).foldl Handover.store output := by
  obtain ⟨hwired, hready, hall⟩ := order_of_build ht hs
  obtain ⟨hgraph, -⟩ := graph_of_build hs
  obtain ⟨p, accepted, d, -, -, -, -, -, hbuilt⟩ := ActionGraph.built_of_build ht hgraph
  have hconstructed := Execution.constructed hwired hready b output
  obtain ⟨-, -, hhanded⟩ := Execution.run_spec hwired hbuilt.within
    (Execution.Settled.of_constructed hconstructed hall)
  -- Noting the end of the run calls no writer.
  have hfinished : (s.execute b output).2.written =
      (Execution.construct s b output).run.2.written :=
    (Execution.written_record _ _).trans (List.append_nil _)
  constructor
  · rw [hfinished, hhanded.written, hconstructed.written, List.nil_append]
  · exact hhanded.output.trans (by rw [hconstructed.output_eq])

end SelectionPlan
