import SelectionPlan.Backend.Engine
import SelectionPlan.Proofs.Backend.Plain

/-!
# The engine keeps what it would compute

What the engine keeps for a frame is what the frame comes to, so it does not matter what has been
pulled before.  A session with the engine gives the answers that going through the table row by row
gives.
-/

namespace SelectionPlan

/-- Loops that keep the order of the rows, as collecting from a pool of threads does. -/
structure RowLoop.Ordered (loop : RowLoop) : Prop where
  filter_eq : ∀ keep rows, loop.filter keep rows = rows.filter keep
  map_eq : ∀ value rows, loop.map value rows = rows.map value

theorem RowLoop.Ordered.choose {pool : RowLoop} (h : pool.Ordered) (parallel : Bool) :
    (if parallel then pool else .sequential).Ordered := by
  cases parallel with
  | true => exact h
  | false => exact ⟨fun _ _ => rfl, fun _ _ => rfl⟩

structure FrameData.InBounds (table : EventTable) (data : FrameData) : Prop where
  rows : ∀ i ∈ data.rows, i < table.rows
  columns : ∀ name values, data.column table name = .ok values → values.length = table.rows

variable {table : EventTable} {loop : RowLoop} {data : FrameData}

/-! ### One step -/

namespace FrameData

theorem filterBy_eq (hloop : loop.Ordered) (data : FrameData) (table : EventTable)
    (predicate : Definition) :
    data.filterBy loop table predicate = data.filter table predicate := by
  simp only [filterBy, hloop.filter_eq, filter]

theorem getElem?_scatter (value : Nat → Float) (rows : List Nat) (column : List Float) (i : Nat) :
    (scatter column (rows.zip (rows.map value)))[i]? =
      column[i]?.map fun old => if i ∈ rows then value i else old := by
  induction rows generalizing column with
  | nil => simp [scatter]
  | cons row rows ih =>
      have hcons : scatter column ((row :: rows).zip ((row :: rows).map value)) =
          scatter (column.set row (value row)) (rows.zip (rows.map value)) := rfl
      rw [hcons, ih, List.getElem?_set]
      by_cases hi : row = i
      · subst hi
        by_cases hlt : row < column.length
        · simp [hlt]
        · simp [hlt]
      · simp [hi, Ne.symm hi]

theorem defineBy_eq (hloop : loop.Ordered) (data : FrameData) (table : EventTable) (name : String)
    (definition : Definition) :
    data.defineBy loop table name definition = data.define table name definition := by
  have hcolumn (inputs : List (List Float)) :
      scatter (List.replicate table.rows Binary64.notANumber)
          (data.rows.zip (data.rows.map (valueAt definition inputs))) =
        (List.range table.rows).map fun row =>
          if row ∈ data.rows then valueAt definition inputs row else Binary64.notANumber := by
    refine List.ext_getElem? fun i => ?_
    rw [getElem?_scatter, List.getElem?_map, List.getElem?_replicate]
    by_cases hi : i < table.rows
    · rw [if_pos hi, List.getElem?_range hi]
      rfl
    · rw [if_neg hi, List.getElem?_eq_none (by simpa using hi)]
      rfl
  simp only [defineBy, hloop.map_eq, hcolumn, define]

theorem After.inBounds {steps : List FrameStep} (h : data.After table steps) :
    data.InBounds table where
  rows := fun i hi => (h.lt_rows hi).1
  columns := by
    intro name values hvalues
    rw [h.column_eq] at hvalues
    cases hunknown : unknown? (table.known steps) [name] with
    | some column =>
        rw [hunknown] at hvalues
        cases hvalues
    | none =>
        rw [hunknown] at hvalues
        cases hvalues
        exact h.length name (unknown?_eq_none.mp hunknown name List.mem_cons_self)

end FrameData

/-! ### What is kept -/

def Frame.parent? : Frame → Option Frame
  | source _ => none
  | filter _ parent _ _ | define _ parent _ _ => some parent

structure Numbered (frames : List Frame) : Prop where
  id_eq : ∀ (i : Nat) (frame : Frame), frames[i]? = some frame → frame.id = i
  parent : ∀ frame ∈ frames, ∀ parent, frame.parent? = some parent →
    parent ∈ frames ∧ parent.id < frame.id

theorem Numbered.eq_of_id {frames : List Frame} (h : Numbered frames) {f g : Frame}
    (hf : f ∈ frames) (hg : g ∈ frames) (hid : f.id = g.id) : f = g := by
  obtain ⟨i, hi⟩ := List.getElem?_of_mem hf
  obtain ⟨j, hj⟩ := List.getElem?_of_mem hg
  rw [h.id_eq i f hi, h.id_eq j g hj] at hid
  rw [hid, hj, Option.some.injEq] at hi
  exact hi.symm

namespace FrameStore

structure Keeps (table : EventTable) (frames : List Frame) (store : FrameStore) : Prop where
  kept : ∀ id outcome, (id, outcome) ∈ store.kept →
    ∃ frame ∈ frames, frame.id = id ∧ outcome = frame.evaluate table
  once : (store.kept.map Prod.fst).Nodup

/-- How a store grows while frames with numbers below `bound` are evaluated. -/
structure Grows (bound : Nat) (store store' : FrameStore) : Prop where
  built : store'.built = store.built
  balance : store'.evaluations + store.kept.length = store.evaluations + store'.kept.length
  fresh : ∀ id ∈ store'.kept.map Prod.fst, id ∈ store.kept.map Prod.fst ∨ id < bound

structure Forces (table : EventTable) (frames : List Frame) (frame : Frame) (bound : Nat)
    (store : FrameStore) (result : Except BackendError FrameData × FrameStore) : Prop where
  outcome : result.1 = frame.evaluate table
  keeps : result.2.Keeps table frames
  grows : store.Grows bound result.2

variable {frames : List Frame} {frame : Frame} {store : FrameStore}

theorem Grows.rfl {bound : Nat} : store.Grows bound store :=
  ⟨Eq.refl _, Eq.refl _, fun _ hid => .inl hid⟩

theorem Grows.mono {bound bound' : Nat} {store' : FrameStore} (h : store.Grows bound store')
    (hle : bound ≤ bound') : store.Grows bound' store' :=
  ⟨h.built, h.balance, fun i hi => (h.fresh i hi).imp_right fun hlt => Nat.lt_of_lt_of_le hlt hle⟩

/-- A frame is looked up first and evaluated only if nothing is kept for it. -/
theorem getOrInit_forces (hframes : Numbered frames) (hframe : frame ∈ frames)
    (h : store.Keeps table frames)
    {evaluate : FrameStore → Except BackendError FrameData × FrameStore}
    (hevaluate : ∀ store : FrameStore, store.Keeps table frames →
      Forces table frames frame frame.id store (evaluate store)) :
    Forces table frames frame (frame.id + 1) store (store.getOrInit frame.id evaluate) := by
  rw [getOrInit]
  cases hlookup : lookupKey frame.id store.kept with
  | some outcome =>
      obtain ⟨frame', hframe', hid, rfl⟩ := h.kept _ _ (mem_of_lookupKey hlookup)
      exact ⟨by rw [hframes.eq_of_id hframe' hframe hid], h, .rfl⟩
  | none =>
      have hnew : frame.id ∉ store.kept.map Prod.fst := by
        rw [← lookupKey_isSome_iff, hlookup]
        exact Bool.false_ne_true
      obtain ⟨houtcome, hkeeps, hbuilt, hbalance, hfresh⟩ :=
        hevaluate { store with evaluations := store.evaluations + 1 } ⟨h.kept, h.once⟩
      simp only at houtcome hkeeps hbuilt hbalance hfresh ⊢
      refine ⟨houtcome, ⟨fun id outcome hmem => ?_, ?_⟩, hbuilt, ?_, fun id hid => ?_⟩
      · rcases List.mem_cons.mp hmem with heq | hmem
        · cases heq
          exact ⟨frame, hframe, rfl, houtcome⟩
        · exact hkeeps.kept id outcome hmem
      · refine List.nodup_cons.mpr ⟨fun hmem => ?_, hkeeps.once⟩
        exact (hfresh _ hmem).elim hnew (Nat.lt_irrefl _)
      · simp only [List.length_cons]
        omega
      · rcases List.mem_cons.mp hid with rfl | hid
        · exact .inr (Nat.lt_succ_self _)
        · exact (hfresh id hid).imp_right Nat.lt_succ_of_lt

/-- Evaluating a frame gives what it comes to, whatever has been evaluated before. -/
theorem force_forces (hloop : loop.Ordered) (hframes : Numbered frames) (hframe : frame ∈ frames)
    (h : store.Keeps table frames) :
    Forces table frames frame (frame.id + 1) store (frame.force table loop store) := by
  induction frame generalizing store with
  | source id => exact getOrInit_forces hframes hframe h fun store h => ⟨rfl, h, .rfl⟩
  | filter id parent name predicate ih =>
      obtain ⟨hparent, hlt⟩ := hframes.parent _ hframe parent rfl
      refine getOrInit_forces hframes hframe h fun store h => ?_
      obtain ⟨houtcome, hkeeps, hgrows⟩ := ih hparent h
      refine ⟨?_, hkeeps, hgrows.mono hlt⟩
      simp only [houtcome, FrameData.filterBy_eq hloop]
      rfl
  | define id parent column definition ih =>
      obtain ⟨hparent, hlt⟩ := hframes.parent _ hframe parent rfl
      refine getOrInit_forces hframes hframe h fun store h => ?_
      obtain ⟨houtcome, hkeeps, hgrows⟩ := ih hparent h
      refine ⟨?_, hkeeps, hgrows.mono hlt⟩
      simp only [houtcome, FrameData.defineBy_eq hloop]
      rfl

theorem Keeps.inBounds (ht : table.Reachable) (h : store.Keeps table frames) {id : FrameId}
    (hmem : (id, .ok data) ∈ store.kept) : data.InBounds table := by
  obtain ⟨frame, -, -, hdata⟩ := h.kept id _ hmem
  obtain ⟨data', hdata', hafter⟩ := frame.evaluate_eq ht
  rw [hdata'] at hdata
  cases hmissing : missing? table.names frame.steps with
  | some column =>
      rw [hmissing] at hdata
      cases hdata
  | none =>
      rw [hmissing] at hdata
      cases hdata
      exact (hafter hmissing).inBounds

end FrameStore

theorem Numbered.push {frames : List Frame} (h : Numbered frames) {frame : Frame}
    (hid : frame.id = frames.length)
    (hparent : ∀ parent, frame.parent? = some parent → parent ∈ frames) :
    Numbered (frames ++ [frame]) := by
  have hlt {f : Frame} (hf : f ∈ frames) : f.id < frames.length := by
    obtain ⟨i, hi⟩ := List.getElem?_of_mem hf
    rw [h.id_eq i f hi]
    exact (List.getElem?_eq_some_iff.mp hi).1
  refine ⟨fun i f hf => ?_, fun f hf parent hp => ?_⟩
  · rw [List.getElem?_append] at hf
    split at hf
    · exact h.id_eq i f hf
    · rename_i hi
      rw [List.getElem?_singleton] at hf
      split at hf
      · rename_i hlast
        have hlast : i = frames.length := by omega
        cases hf
        rw [hid, hlast]
      · cases hf
  · rcases List.mem_append.mp hf with hf | hf
    · obtain ⟨hmem, hlt⟩ := h.parent f hf parent hp
      exact ⟨List.mem_append_left _ hmem, hlt⟩
    · rw [List.mem_singleton] at hf
      subst hf
      have hmem := hparent parent hp
      exact ⟨List.mem_append_left _ hmem, hid ▸ hlt hmem⟩

/-! ### Sessions -/

def Client.map {H H' : Type} (f : H → H') (client : Client H) : Client H' :=
  ⟨client.frames.map f, client.counts.map f, client.results.map fun (frame, request) =>
    (f frame, request)⟩

/-- What a client holds was built by the engine, which keeps what the frames come to. -/
structure Client.Sound (table : EventTable) (client : Client Frame) (store : FrameStore) :
    Prop where
  numbered : Numbered client.frames
  built : store.built = client.frames.length
  counts : client.counts ⊆ client.frames
  results : ∀ frame request, (frame, request) ∈ client.results → frame ∈ client.frames
  keeps : store.Keeps table client.frames
  evaluations : store.evaluations = store.kept.length

namespace Client.Sound

variable {client : Client Frame} {store : FrameStore}

theorem start (table : EventTable) : Sound table {} {} where
  numbered := ⟨by simp, by simp⟩
  built := rfl
  counts := List.nil_subset _
  results := by simp
  keeps := ⟨by simp, List.nodup_nil⟩
  evaluations := rfl

variable (h : client.Sound table store)
include h

theorem build (frame : FrameId → Frame) (hid : ∀ id, (frame id).id = id)
    (hparent : ∀ id parent, (frame id).parent? = some parent → parent ∈ client.frames) :
    Sound table { client with frames := client.frames ++ [(store.build frame).1] }
      (store.build frame).2 where
  numbered := h.numbered.push ((hid _).trans h.built) (hparent _)
  built := by simp [FrameStore.build, h.built]
  counts := List.Subset.trans h.counts (List.subset_append_left _ _)
  results := fun frame request hmem => List.mem_append_left _ (h.results frame request hmem)
  keeps := by
    refine ⟨fun id outcome hmem => ?_, h.keeps.once⟩
    obtain ⟨frame, hframe, hkept⟩ := h.keeps.kept id outcome hmem
    exact ⟨frame, List.mem_append_left _ hframe, hkept⟩
  evaluations := h.evaluations

theorem force {frame : Frame} {bound : Nat} {result : Except BackendError FrameData × FrameStore}
    (hresult : FrameStore.Forces table client.frames frame bound store result) :
    client.Sound table result.2 where
  numbered := h.numbered
  built := hresult.grows.built.trans h.built
  counts := h.counts
  results := h.results
  keeps := hresult.keeps
  evaluations := by
    have hbalance := hresult.grows.balance
    have hevaluations := h.evaluations
    omega

end Client.Sound

namespace EventTable

variable {client : Client Frame} {store : FrameStore} {pool : RowLoop}

theorem engine_pullCount (ht : table.Reachable) (parallel : Bool) (hpool : pool.Ordered)
    (h : client.Sound table store) {frame : Frame} (hframe : frame ∈ client.frames) :
    ((table.engine parallel pool).pullCount frame store).1 = table.plainCount frame.steps ∧
      client.Sound table ((table.engine parallel pool).pullCount frame store).2 := by
  have hforce := FrameStore.force_forces (hpool.choose parallel) h.numbered hframe h.keeps
  refine ⟨?_, h.force hforce⟩
  rw [← frame.count_eq ht, Frame.count, ← hforce.outcome]
  rfl

theorem engine_pull (ht : table.Reachable) (parallel : Bool) (hpool : pool.Ordered)
    (h : client.Sound table store) {frame : Frame} (hframe : frame ∈ client.frames)
    (request : Request) :
    ((table.engine parallel pool).pull frame request store).1 =
        table.plainResult frame.steps request ∧
      client.Sound table ((table.engine parallel pool).pull frame request store).2 := by
  have hforce := FrameStore.force_forces (hpool.choose parallel) h.numbered hframe h.keeps
  refine ⟨?_, h.force hforce⟩
  rw [← frame.materialize_eq ht, Frame.materialize, ← hforce.outcome]
  rfl

theorem engine_call (ht : table.Reachable) (parallel : Bool) (hpool : pool.Ordered)
    (h : client.Sound table store) (call : Call) : ∃ answer client' store',
      (table.engine parallel pool).call client store call = (answer, client', store') ∧
      table.plain.call (client.map Frame.steps) () call = (answer, client'.map Frame.steps, ()) ∧
      client'.Sound table store' := by
  have hframe (i : Nat) : (client.map Frame.steps).frames[i]? = client.frames[i]?.map Frame.steps :=
    List.getElem?_map
  have hcount (i : Nat) : (client.map Frame.steps).counts[i]? = client.counts[i]?.map Frame.steps :=
    List.getElem?_map
  have hresult (i : Nat) : (client.map Frame.steps).results[i]? =
      client.results[i]?.map fun (frame, request) => (frame.steps, request) :=
    List.getElem?_map
  have hpush (frame : Frame) : Client.map Frame.steps
      { client with frames := client.frames ++ [frame] } =
        { client.map Frame.steps with
          frames := (client.map Frame.steps).frames ++ [frame.steps] } := by
    simp [Client.map]
  have hparent {parent : Frame} {i : Nat} (hi : client.frames[i]? = some parent) {p : Frame}
      (hp : some parent = some p) : p ∈ client.frames := by
    cases hp
    exact List.mem_of_getElem? hi
  cases call with
  | source =>
      refine ⟨.handle, _, _, rfl, ?_, h.build .source (fun _ => rfl) fun _ _ hp => nomatch hp⟩
      rw [hpush]
      rfl
  | applyFilter i name predicate =>
      simp only [LazyBackend.call, hframe]
      cases hi : client.frames[i]? with
      | none => exact ⟨.unknown, client, store, rfl, rfl, h⟩
      | some parent =>
          refine ⟨.handle, _, _, rfl, ?_, h.build (fun id => .filter id parent name predicate)
            (fun _ => rfl) fun _ _ => hparent hi⟩
          rw [hpush]
          rfl
  | defineColumn i name definition =>
      simp only [LazyBackend.call, hframe]
      cases hi : client.frames[i]? with
      | none => exact ⟨.unknown, client, store, rfl, rfl, h⟩
      | some parent =>
          simp only [Option.map_some, engine, plain]
          split
          · exact ⟨_, client, store, rfl, rfl, h⟩
          · refine ⟨.handle, _, _, rfl, ?_,
              h.build (fun id => .define id parent name definition) (fun _ => rfl) fun _ _ =>
                hparent hi⟩
            rw [hpush]
            rfl
  | count i =>
      simp only [LazyBackend.call, hframe]
      cases hi : client.frames[i]? with
      | none => exact ⟨.unknown, client, store, rfl, rfl, h⟩
      | some frame =>
          refine ⟨.handle, _, store, rfl, ?_, { h with counts := ?_ }⟩
          · simp [Client.map]
          · exact List.append_subset.mpr ⟨h.counts, by simpa using List.mem_of_getElem? hi⟩
  | materialize i request =>
      simp only [LazyBackend.call, hframe]
      cases hi : client.frames[i]? with
      | none => exact ⟨.unknown, client, store, rfl, rfl, h⟩
      | some frame =>
          refine ⟨.handle, _, store, rfl, ?_, { h with results := fun f r hmem => ?_ }⟩
          · simp [Client.map]
          · rcases List.mem_append.mp hmem with hmem | hmem
            · exact h.results f r hmem
            · cases List.mem_singleton.mp hmem
              exact List.mem_of_getElem? hi
  | pullCount i =>
      simp only [LazyBackend.call, hcount]
      cases hi : client.counts[i]? with
      | none => exact ⟨.unknown, client, store, rfl, rfl, h⟩
      | some frame =>
          obtain ⟨houtcome, hsound⟩ := engine_pullCount ht parallel hpool h
            (h.counts (List.mem_of_getElem? hi))
          exact ⟨_, client, _, rfl, by rw [houtcome]; rfl, hsound⟩
  | pull i =>
      simp only [LazyBackend.call, hresult]
      cases hi : client.results[i]? with
      | none => exact ⟨.unknown, client, store, rfl, rfl, h⟩
      | some entry =>
          obtain ⟨frame, request⟩ := entry
          obtain ⟨houtcome, hsound⟩ := engine_pull ht parallel hpool h
            (h.results frame request (List.mem_of_getElem? hi)) request
          exact ⟨_, client, _, rfl, by rw [houtcome]; rfl, hsound⟩

theorem engine_session (ht : table.Reachable) (parallel : Bool) (hpool : pool.Ordered)
    (h : client.Sound table store) (calls : List Call) : ∃ answers client' store',
      (table.engine parallel pool).session calls client store = (answers, client', store') ∧
      table.plain.session calls (client.map Frame.steps) () =
        (answers, client'.map Frame.steps, ()) ∧
      client'.Sound table store' := by
  induction calls generalizing client store with
  | nil => exact ⟨[], client, store, rfl, rfl, h⟩
  | cons call rest ih =>
      obtain ⟨answer, client', store', hcall, hplain, hsound⟩ :=
        engine_call ht parallel hpool h call
      obtain ⟨answers, client'', store'', hrest, hplain', hsound'⟩ := ih hsound
      refine ⟨answer :: answers, client'', store'', ?_, ?_, hsound'⟩
      · simp only [LazyBackend.session, hcall, hrest]
      · simp only [LazyBackend.session, hplain, hplain']

/-- The engine answers every session as going through the table row by row does, in parallel or not.
After any session the answer to a pull is a matter of the steps of its frame alone, the rows that
are kept for a frame are rows of all its columns, and no frame has been evaluated twice. -/
theorem engine_refines_plain (ht : table.Reachable) (parallel : Bool) (hpool : pool.Ordered)
    (calls : List Call) : ∃ answers client store,
      (table.engine parallel pool).session calls {} {} = (answers, client, store) ∧
      table.plain.session calls {} () = (answers, client.map Frame.steps, ()) ∧
      (∀ frame ∈ client.frames,
        ((table.engine parallel pool).pullCount frame store).1 = table.plainCount frame.steps ∧
        ∀ request, ((table.engine parallel pool).pull frame request store).1 =
          table.plainResult frame.steps request) ∧
      (∀ id data, (id, .ok data) ∈ store.kept → data.InBounds table) ∧
      (store.kept.map Prod.fst).Nodup ∧ store.evaluations = store.kept.length := by
  obtain ⟨answers, client, store, hengine, hplain, hsound⟩ :=
    engine_session ht parallel hpool (.start table) calls
  refine ⟨answers, client, store, hengine, hplain, fun frame hframe => ⟨?_, fun request => ?_⟩,
    fun id data hmem => hsound.keeps.inBounds ht hmem, hsound.keeps.once, hsound.evaluations⟩
  · exact (engine_pullCount ht parallel hpool hsound hframe).1
  · exact (engine_pull ht parallel hpool hsound hframe request).1

def halves : RowLoop where
  filter := fun keep rows =>
    (rows.take (rows.length / 2)).filter keep ++ (rows.drop (rows.length / 2)).filter keep
  map := fun value rows =>
    (rows.take (rows.length / 2)).map value ++ (rows.drop (rows.length / 2)).map value

theorem halves_ordered : halves.Ordered where
  filter_eq := fun keep rows => by
    simp only [halves, ← List.filter_append, List.take_append_drop]
  map_eq := fun value rows => by
    simp only [halves, ← List.map_append, List.take_append_drop]

theorem sample_reachable : Sample.table.Reachable := by
  have hpt : EventTable.empty.insert "pt" [1, -1] = .ok ⟨some 2, [("pt", [1, -1])]⟩ := rfl
  have hup : EventTable.insert ⟨some 2, [("pt", [1, -1])]⟩ "ptUp" [1, 1] = .ok Sample.table := rfl
  exact .insert (.insert .empty hpt) hup

/-- A column that is defined twice on the rows with positive `pt`, and a filter on a column that is
not there.  The first two calls to pull count, the others want columns and a weighted sum. -/
def sampleCalls : List Call :=
  [.source, .applyFilter 0 "positive" (.column "pt"),
    .defineColumn 1 "half" (.function (fun values => values.headD 0 / 2) ["pt"]),
    .defineColumn 2 "half" (.function (fun values => values.headD 0 / 2) ["half"]),
    .applyFilter 1 "nothing" (.column "nowhere"), .count 4, .pullCount 0, .count 3, .pullCount 1,
    .materialize 3 { columns := [("y", "half"), ("x", "pt")], weight := some "half" }, .pull 0,
    .materialize 0 { columns := [("x", "pt")], weight := some "pt" }, .pull 1,
    .materialize 3 { columns := [("x", "pt")], weight := some "third" }, .pull 2]

/-- The failure of one branch does not reach the other, a result carries the values and the sums of
its own frame, and the five frames are evaluated once. -/
theorem engine_refines_plain_sample : ∃ answers client store,
    (Sample.table.engine true halves).session sampleCalls {} {} = (answers, client, store) ∧
      Sample.table.plain.session sampleCalls {} () = (answers, client.map Frame.steps, ()) ∧
      answers.drop 6 =
        [.counted (.error (.missingColumn "nowhere")), .handle, .counted (.ok 1), .handle,
          .pulled (.ok ⟨1, 0 + 1 / 2 / 2, 0 + 1 / 2 / 2 * (1 / 2 / 2),
            [("x", [1]), ("y", [1 / 2 / 2])]⟩), .handle,
          .pulled (.ok ⟨2, 0 + 1 + -1, 0 + 1 * 1 + -1 * -1, [("x", [1, -1])]⟩), .handle,
          .pulled (.error (.missingColumn "third"))] ∧
      store.evaluations = 5 := by
  obtain ⟨answers, client, store, hengine, hplain, -⟩ :=
    engine_refines_plain sample_reachable true halves_ordered sampleCalls
  have hanswers := congrArg (fun run => run.1.drop 6) hengine
  have hevaluations := congrArg (fun run => run.2.2.evaluations) hengine
  exact ⟨answers, client, store, hengine, hplain, hanswers.symm, hevaluations.symm⟩

end EventTable
end SelectionPlan
