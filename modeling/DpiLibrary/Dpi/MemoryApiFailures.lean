import DpiLibrary.Foundation.Schedule
import DpiLibrary.Dpi.MemoryApi

/-!
# Failures of the memory API

A call reports failure when it returns an error code, and returns success only when it
has been carried out. A run of calls does so throughout exactly when the registry and the
nodes refuse nothing that the calls take for granted.
-/

namespace DpiLibrary

open Schedule

variable {dpiNodes : List String} {answers : Answers} {ctx ctx' : DpiContext} {name : String}
  {code : ErrCode}

/-- The registry lets a writer join one ring, on a node that is configured and reached. -/
def WriterJoins (dpiNodes : List String) (answers : Answers) (name : String) : Prop :=
  ∃ handle segment connection, answers.joinBuffer name = some handle ∧
    handle.entrySegments = [segment] ∧
    getIPFromNodeId dpiNodes handle.nodeId = .returned connection ∧
    answers.connectWriter connection = .returned true ∧
    answers.readHeader segment.offset = .returned true

/-- The registry knows the buffer, and its node is configured and reached. -/
def ReaderConnects (dpiNodes : List String) (answers : Answers) (name : String) : Prop :=
  ∃ handle connection, answers.retrieveBuffer name = some handle ∧
    getIPFromNodeId dpiNodes handle.nodeId = .returned connection ∧
    answers.connectReader connection = .returned true

/-- A buffer can be created: the registry accepts it, and writer and reader are set up. -/
structure Creates (dpiNodes : List String) (answers : Answers) (name : String)
    (nodeId segmentsPerAppender participatingAppenders : ℕ) : Prop where
  registered : answers.registerBuffer
    (DpiContext.createdHandle name nodeId segmentsPerAppender participatingAppenders) = true
  writer : WriterJoins dpiNodes answers name
  reader : ReaderConnects dpiNodes answers name

namespace ApiCall

/-- What the call is for gets done. -/
def CarriedOut (dpiNodes : List String) (ctx : DpiContext) (answers : Answers)
    (call : ApiCall) : Prop :=
  ctx.initialised = true ∧
    match call with
    | .createBuffer name nodeId segmentsPerAppender participatingAppenders =>
      Creates dpiNodes answers name nodeId segmentsPerAppender participatingAppenders
    | .append name data => ∃ writer, ctx.bufferWriters.lookup name = some (some writer) ∧
      writer.append answers data = .returned true
    | .closeBuffer name => ∃ writer, ctx.bufferWriters.lookup name = some (some writer) ∧
      writer.close answers name = .returned true
    | .getBuffer name => ∃ reader data, ctx.bufferReaders.lookup name = some (some reader) ∧
      reader.read answers = .returned (some data)
    | .finalize => ∀ name pointer, ctx.bufferWriters.lookup name = some pointer →
      ∃ writer, pointer = some writer ∧ writer.close answers name = .returned true

/-- The call returns an error code; if it could not be carried out, then not `DPI_SUCCESS`,
and the maps are left as they are. -/
def ReportsFailure (dpiNodes : List String) (ctx : DpiContext) (answers : Answers)
    (call : ApiCall) : Prop :=
  ∃ code ctx', call.run dpiNodes ctx answers = .returned (code, ctx') ∧
    (¬ call.CarriedOut dpiNodes ctx answers → code ≠ .success ∧
      ctx'.bufferWriters = ctx.bufferWriters ∧ ctx'.bufferReaders = ctx.bufferReaders)

/-- Nothing happens to the call that its function does not expect: a creation is accepted
throughout, other calls name a buffer that is there, closing succeeds, and an append or a
read returns. -/
def Served (dpiNodes : List String) (ctx : DpiContext) (answers : Answers) (call : ApiCall) :
    Prop :=
  ctx.initialised = true →
    match call with
    | .createBuffer name nodeId segmentsPerAppender participatingAppenders =>
      Creates dpiNodes answers name nodeId segmentsPerAppender participatingAppenders
    | .append name data => name ∈ ctx.bufferWriters ∧
      ∃ appended, answers.append data = .returned appended
    | .closeBuffer name => name ∈ ctx.bufferWriters ∧ answers.close name = .returned true
    | .getBuffer name => name ∈ ctx.bufferReaders ∧
      ∃ handle, answers.retrieveBuffer name = some handle ∧
        (handle.entrySegments = [] ∨ ∃ data, answers.readSegments handle = .returned data)
    | .finalize => ∀ name ∈ ctx.bufferWriters, answers.close name = .returned true

end ApiCall

/-- The pointers in the maps are those of writers and readers that have been set up. -/
structure DpiContext.WellKept (ctx : DpiContext) : Prop where
  writer : ∀ name pointer, ctx.bufferWriters.lookup name = some pointer →
    ∃ segment, pointer = some ⟨some segment⟩
  reader : ∀ name pointer, ctx.bufferReaders.lookup name = some pointer →
    pointer = some ⟨name, true⟩

theorem DpiContext.wellKept_empty (initialised : Bool) : (empty initialised).WellKept := by
  constructor <;> intro name pointer h <;> simp [empty] at h

theorem DpiContext.WellKept.lookup_writer (h : ctx.WellKept) (hname : name ∈ ctx.bufferWriters) :
    ∃ segment, ctx.bufferWriters.lookup name = some (some ⟨some segment⟩) := by
  obtain ⟨pointer, hpointer⟩ := Option.isSome_iff_exists.mp (AList.lookup_isSome.mpr hname)
  obtain ⟨segment, rfl⟩ := h.writer name pointer hpointer
  exact ⟨segment, hpointer⟩

theorem DpiContext.WellKept.lookup_reader (h : ctx.WellKept) (hname : name ∈ ctx.bufferReaders) :
    ctx.bufferReaders.lookup name = some (some ⟨name, true⟩) := by
  obtain ⟨pointer, hpointer⟩ := Option.isSome_iff_exists.mp (AList.lookup_isSome.mpr hname)
  rw [hpointer, h.reader name pointer hpointer]

section

variable {α : Type} {map : AList fun _ : String => Option α}

theorem subscript_of_lookup {pointer : Option α} (h : map.lookup name = some pointer) :
    subscript map name = (map, pointer) := by
  simp [subscript, h]

/-- A pointer that is not null has been in the map before. -/
theorem lookup_of_subscript {a : α} (h : (subscript map name).2 = some a) :
    map.lookup name = some (some a) ∧ (subscript map name).1 = map := by
  cases hlookup : map.lookup name with
  | none =>
    simp only [subscript, hlookup] at h
    cases h
  | some pointer =>
    rw [subscript_of_lookup hlookup] at h ⊢
    exact ⟨congrArg some h, rfl⟩

theorem mem_of_lookup {pointer : Option α} (h : map.lookup name = some pointer) : name ∈ map := by
  rw [← AList.lookup_isSome, h]
  rfl

end

/-- The handle of a retrieve carries the name asked for. -/
theorem name_of_retrieveBuffer {handle : BufferHandle}
    (h : answers.retrieveBuffer name = some handle) : handle.name = name := by
  unfold Answers.retrieveBuffer at h
  simp only [RegistryClient.result, RegistryClient.retrieveOrJoinBuffer] at h
  split at h
  · split_ifs at h
    cases h
    rfl
  · cases h

theorem WriterJoins.construct (h : WriterJoins dpiNodes answers name) :
    ∃ segment, ApiWriter.construct dpiNodes answers name = .returned ⟨some segment⟩ := by
  obtain ⟨handle, segment, connection, hjoin, hsegments, hip, hconnect, hread⟩ := h
  refine ⟨segment, ?_⟩
  simp [ApiWriter.construct, hjoin, hsegments, hip, hconnect, hread, Outcome.deref]

theorem ReaderConnects.construct (h : ReaderConnects dpiNodes answers name) :
    ApiReader.construct dpiNodes answers (answers.retrieveBuffer name) =
      .returned ⟨name, true⟩ := by
  obtain ⟨handle, connection, hretrieve, hip, hconnect⟩ := h
  simp [ApiReader.construct, hretrieve, hip, hconnect, Outcome.deref,
    name_of_retrieveBuffer hretrieve]

namespace DpiContext

/-! What an initialised context's calls have done when they return. -/

theorem createBuffer_returned (hinit : ctx.initialised = true)
    (nodeId segmentsPerAppender participatingAppenders : ℕ)
    (h : ctx.createBuffer dpiNodes answers name nodeId segmentsPerAppender
      participatingAppenders = .returned (code, ctx')) :
    ∃ writer reader, ApiWriter.construct dpiNodes answers name = .returned writer ∧
      ApiReader.construct dpiNodes answers (answers.retrieveBuffer name) = .returned reader ∧
      code = .success ∧ ctx' = { ctx with
        bufferWriters := ctx.bufferWriters.insert name (some writer)
        bufferReaders := ctx.bufferReaders.insert name (some reader) } := by
  simp only [createBuffer, hinit, Bool.true_eq_false, if_false, Outcome.bind_eq_returned_iff,
    Outcome.pure_eq, Outcome.returned.injEq, Prod.mk.injEq] at h
  obtain ⟨writer, hwriter, reader, hreader, hcode, hctx⟩ := h
  exact ⟨writer, reader, hwriter, hreader, hcode.symm, by rw [← hctx, hinit]⟩

theorem append_returned (hinit : ctx.initialised = true) {data : List UInt8}
    (h : ctx.append answers name data = .returned (code, ctx')) :
    ∃ writer appended, ctx.bufferWriters.lookup name = some (some writer) ∧
      writer.append answers data = .returned appended ∧
      code = (if appended then .success else .failure) ∧ ctx' = ctx := by
  simp only [append, hinit, Bool.true_eq_false, if_false, Outcome.bind_eq_returned_iff,
    Outcome.deref_eq_returned_iff, Outcome.pure_eq, Outcome.returned.injEq, Prod.mk.injEq] at h
  obtain ⟨writer, hpointer, appended, happend, hcode, hctx⟩ := h
  obtain ⟨hlookup, hmap⟩ := lookup_of_subscript hpointer
  rw [hmap] at hctx
  exact ⟨writer, appended, hlookup, happend, hcode.symm, by rw [← hctx, ← hinit]⟩

theorem closeBuffer_returned (hinit : ctx.initialised = true)
    (h : ctx.closeBuffer answers name = .returned (code, ctx')) :
    ∃ writer closed, ctx.bufferWriters.lookup name = some (some writer) ∧
      writer.close answers name = .returned closed ∧ code = .success ∧ ctx' = ctx := by
  simp only [closeBuffer, hinit, Bool.true_eq_false, if_false, Outcome.bind_eq_returned_iff,
    Outcome.deref_eq_returned_iff, Outcome.pure_eq, Outcome.returned.injEq, Prod.mk.injEq] at h
  obtain ⟨writer, hpointer, closed, hclose, hcode, hctx⟩ := h
  obtain ⟨hlookup, hmap⟩ := lookup_of_subscript hpointer
  rw [hmap] at hctx
  exact ⟨writer, closed, hlookup, hclose, hcode.symm, by rw [← hctx, ← hinit]⟩

theorem getBuffer_returned (hinit : ctx.initialised = true) {before data : Option (List UInt8)}
    (h : ctx.getBuffer answers name before = .returned (code, ctx', data)) :
    ∃ reader, ctx.bufferReaders.lookup name = some (some reader) ∧
      reader.read answers = .returned data ∧
      code = (if data.isSome then .success else .failure) ∧ ctx' = ctx := by
  simp only [getBuffer, hinit, Bool.true_eq_false, if_false, Outcome.bind_eq_returned_iff,
    Outcome.deref_eq_returned_iff, Outcome.pure_eq, Outcome.returned.injEq, Prod.mk.injEq] at h
  obtain ⟨reader, hpointer, data', hread, hcode, hctx, rfl⟩ := h
  obtain ⟨hlookup, hmap⟩ := lookup_of_subscript hpointer
  rw [hmap] at hctx
  exact ⟨reader, hlookup, hread, hcode.symm, by rw [← hctx, ← hinit]⟩

/-- The loop comes to its end when every writer's `close` returns. -/
theorem closeAll_returned {entries : List ((_ : String) × Option ApiWriter)}
    (h : ∀ e ∈ entries, ∃ writer closed, e.2 = some writer ∧
      writer.close answers e.1 = .returned closed) : closeAll answers entries = .returned () := by
  induction entries with
  | nil => rfl
  | cons e entries ih =>
    obtain ⟨writer, closed, hpointer, hclose⟩ := h e List.mem_cons_self
    obtain ⟨name, pointer⟩ := e
    have hrest := ih fun e he => h e (List.mem_cons_of_mem _ he)
    simp only at hpointer hclose
    simp [closeAll, hpointer, Outcome.deref, hclose, hrest]

theorem finalize_returned (hinit : ctx.initialised = true)
    (h : ctx.finalize answers = .returned (code, ctx')) : code = .success ∧ ctx' = ctx := by
  simp only [finalize, hinit, Bool.true_eq_false, if_false, Outcome.bind_eq_returned_iff,
    Outcome.pure_eq, Outcome.returned.injEq, Prod.mk.injEq] at h
  obtain ⟨-, -, hcode, hctx⟩ := h
  exact ⟨hcode.symm, hctx.symm⟩

end DpiContext

namespace ApiCall

variable {call : ApiCall}

/-- Without a registry client every call returns at once. -/
theorem run_of_not_initialised (hinit : ctx.initialised = false) :
    call.run dpiNodes ctx answers = .returned (.notInitialized, ctx) := by
  cases call <;> simp [run, DpiContext.createBuffer, DpiContext.append, DpiContext.closeBuffer,
    DpiContext.getBuffer, DpiContext.finalize, hinit]

/-- A call that reports no failure by itself has to be carried out. -/
theorem ReportsFailure.carriedOut (h : call.ReportsFailure dpiNodes ctx answers)
    (hsuccess : ∀ code ctx', call.run dpiNodes ctx answers = .returned (code, ctx') →
      code = .success) : call.CarriedOut dpiNodes ctx answers := by
  obtain ⟨code, ctx', hrun, hreport⟩ := h
  by_contra hnot
  exact (hreport hnot).1 (hsuccess code ctx' hrun)

/-- Names in a well-kept context have writers that are set up, so their methods are those of
the network. -/
theorem ReportsFailure.served (h : call.ReportsFailure dpiNodes ctx answers)
    (hkept : ctx.WellKept) : call.Served dpiNodes ctx answers := by
  intro hinit
  cases call with
  | createBuffer name nodeId segmentsPerAppender participatingAppenders =>
    refine (h.carriedOut fun code ctx' hrun => ?_).2
    obtain ⟨-, -, -, -, hcode, -⟩ := DpiContext.createBuffer_returned hinit nodeId
      segmentsPerAppender participatingAppenders hrun
    exact hcode
  | append name data =>
    obtain ⟨code, ctx', hrun, -⟩ := h
    obtain ⟨writer, appended, hlookup, happend, -⟩ := DpiContext.append_returned hinit hrun
    obtain ⟨segment, hwriter⟩ := hkept.writer name _ hlookup
    cases hwriter
    exact ⟨mem_of_lookup hlookup, appended, happend⟩
  | closeBuffer name =>
    obtain ⟨-, writer, hlookup, hclose⟩ := h.carriedOut fun code ctx' hrun => by
      obtain ⟨-, -, -, -, hcode, -⟩ := DpiContext.closeBuffer_returned hinit hrun
      exact hcode
    obtain ⟨segment, hwriter⟩ := hkept.writer name _ hlookup
    cases hwriter
    exact ⟨mem_of_lookup hlookup, hclose⟩
  | getBuffer name =>
    obtain ⟨code, ctx', hrun, -⟩ := h
    simp only [run, Outcome.bind_eq_returned_iff, Prod.exists] at hrun
    obtain ⟨code', ctx'', data, hget, -⟩ := hrun
    obtain ⟨reader, hlookup, hread, -⟩ := DpiContext.getBuffer_returned hinit hget
    cases hkept.reader name _ hlookup
    refine ⟨mem_of_lookup hlookup, ?_⟩
    simp only [ApiReader.read, Outcome.bind_eq_returned_iff, Outcome.deref_eq_returned_iff,
      if_true] at hread
    obtain ⟨handle, hretrieve, hread⟩ := hread
    refine ⟨handle, hretrieve, ?_⟩
    split_ifs at hread with hnil
    · exact Or.inl hnil
    · exact Or.inr ⟨data, hread⟩
  | finalize =>
    obtain ⟨-, hall⟩ := h.carriedOut fun code ctx' hrun =>
      (DpiContext.finalize_returned hinit hrun).1
    intro name hname
    obtain ⟨segment, hlookup⟩ := hkept.lookup_writer hname
    obtain ⟨writer, hwriter, hclose⟩ := hall name _ hlookup
    cases hwriter
    exact hclose

theorem Served.reportsFailure (h : call.Served dpiNodes ctx answers) (hkept : ctx.WellKept) :
    call.ReportsFailure dpiNodes ctx answers := by
  by_cases hinit : ctx.initialised = true
  · have hserved := h hinit
    have hready : ctx.initialised = false ↔ False := by simp [hinit]
    cases call with
    | createBuffer name nodeId segmentsPerAppender participatingAppenders =>
      obtain ⟨segment, hwriter⟩ := hserved.writer.construct
      have hreader := hserved.reader.construct
      refine ⟨.success, { ctx with
        bufferWriters := ctx.bufferWriters.insert name (some ⟨some segment⟩)
        bufferReaders := ctx.bufferReaders.insert name (some ⟨name, true⟩) }, ?_,
        fun hnot => absurd ⟨hinit, hserved⟩ hnot⟩
      simp only [run, DpiContext.createBuffer, hinit, Bool.true_eq_false, if_false, hwriter,
        hreader, Outcome.returned_bind, Outcome.pure_eq]
    | append name data =>
      obtain ⟨hname, appended, happend⟩ := hserved
      obtain ⟨segment, hlookup⟩ := hkept.lookup_writer hname
      refine ⟨if appended then .success else .failure, ctx, ?_, fun hnot => ⟨?_, rfl, rfl⟩⟩
      · simp [run, DpiContext.append, hready, subscript_of_lookup hlookup, Outcome.deref,
          ApiWriter.append, happend]
      · cases appended with
        | true => exact absurd ⟨hinit, _, hlookup, happend⟩ hnot
        | false => simp
    | closeBuffer name =>
      obtain ⟨hname, hclose⟩ := hserved
      obtain ⟨segment, hlookup⟩ := hkept.lookup_writer hname
      refine ⟨.success, ctx, ?_, fun hnot => absurd ⟨hinit, _, hlookup, hclose⟩ hnot⟩
      simp [run, DpiContext.closeBuffer, hready, subscript_of_lookup hlookup, Outcome.deref,
        ApiWriter.close, hclose]
    | getBuffer name =>
      obtain ⟨hname, handle, hretrieve, hread⟩ := hserved
      have hlookup := hkept.lookup_reader hname
      have hdata : ∃ data, (ApiReader.mk name true).read answers = .returned data := by
        rcases hread with hnil | ⟨data, hread⟩
        · exact ⟨none, by simp [ApiReader.read, hretrieve, Outcome.deref, hnil]⟩
        · by_cases hnil : handle.entrySegments = []
          · exact ⟨none, by simp [ApiReader.read, hretrieve, Outcome.deref, hnil]⟩
          · exact ⟨data, by simp [ApiReader.read, hretrieve, Outcome.deref, hnil, hread]⟩
      obtain ⟨data, hdata⟩ := hdata
      refine ⟨if data.isSome then .success else .failure, ctx, ?_, fun hnot => ⟨?_, rfl, rfl⟩⟩
      · simp [run, DpiContext.getBuffer, hready, subscript_of_lookup hlookup, Outcome.deref,
          hdata]
      · cases data with
        | some data => exact absurd ⟨hinit, _, data, hlookup, hdata⟩ hnot
        | none => simp
    | finalize =>
      have hentries : ∀ e ∈ ctx.bufferWriters.entries, ∃ writer closed, e.2 = some writer ∧
          writer.close answers e.1 = .returned closed := by
        rintro ⟨name, pointer⟩ he
        have hlookup := AList.mem_lookup_iff.mpr he
        obtain ⟨segment, rfl⟩ := hkept.writer name pointer hlookup
        exact ⟨_, true, rfl, hserved name (mem_of_lookup hlookup)⟩
      refine ⟨.success, ctx, ?_, fun hnot => absurd ⟨hinit, ?_⟩ hnot⟩
      · simp [run, DpiContext.finalize, hinit, DpiContext.closeAll_returned hentries]
      · intro name pointer hlookup
        obtain ⟨segment, rfl⟩ := hkept.writer name pointer hlookup
        exact ⟨_, rfl, hserved name (mem_of_lookup hlookup)⟩
  · rw [Bool.not_eq_true] at hinit
    exact ⟨.notInitialized, ctx, run_of_not_initialised hinit, fun _ => ⟨by simp, rfl, rfl⟩⟩

/-- A call that reports failure properly leaves a well-kept context. -/
theorem ReportsFailure.wellKept (h : call.ReportsFailure dpiNodes ctx answers)
    (hkept : ctx.WellKept) (hrun : call.run dpiNodes ctx answers = .returned (code, ctx')) :
    ctx'.WellKept := by
  by_cases hinit : ctx.initialised = true
  · cases call with
    | createBuffer name nodeId segmentsPerAppender participatingAppenders =>
      have hcreates := h.served hkept hinit
      obtain ⟨segment, hwriter⟩ := hcreates.writer.construct
      obtain ⟨writer, reader, hwriter', hreader', -, rfl⟩ :=
        DpiContext.createBuffer_returned hinit nodeId segmentsPerAppender
        participatingAppenders hrun
      cases hwriter.symm.trans hwriter'
      cases hcreates.reader.construct.symm.trans hreader'
      constructor
      · intro other pointer hlookup
        by_cases hname : other = name
        · subst hname
          simp only [AList.lookup_insert, Option.some.injEq] at hlookup
          exact ⟨segment, hlookup.symm⟩
        · simp only [AList.lookup_insert_ne hname] at hlookup
          exact hkept.writer other pointer hlookup
      · intro other pointer hlookup
        by_cases hname : other = name
        · subst hname
          simp only [AList.lookup_insert, Option.some.injEq] at hlookup
          exact hlookup.symm
        · simp only [AList.lookup_insert_ne hname] at hlookup
          exact hkept.reader other pointer hlookup
    | append name data =>
      obtain ⟨-, -, -, -, -, rfl⟩ := DpiContext.append_returned hinit hrun
      exact hkept
    | closeBuffer name =>
      obtain ⟨-, -, -, -, -, rfl⟩ := DpiContext.closeBuffer_returned hinit hrun
      exact hkept
    | getBuffer name =>
      simp only [run, Outcome.bind_eq_returned_iff, Prod.exists] at hrun
      obtain ⟨code', ctx'', data, hget, hreturn⟩ := hrun
      obtain ⟨-, -, -, -, rfl⟩ := DpiContext.getBuffer_returned hinit hget
      cases hreturn
      exact hkept
    | finalize =>
      obtain ⟨-, rfl⟩ := DpiContext.finalize_returned hinit hrun
      exact hkept
  · rw [Bool.not_eq_true] at hinit
    cases (run_of_not_initialised hinit).symm.trans hrun
    exact hkept

/-- In every run of calls on a new context each call reports failure properly, if and only if
each call is served. -/
theorem reportsFailure_iff_served (dpiNodes : List String) (initialised : Bool)
    (calls : List (ApiCall × Answers)) :
    EachStep (step dpiNodes)
        (fun s a => ∀ ctx, s = .returned ctx → a.1.ReportsFailure dpiNodes ctx a.2)
        (.returned (.empty initialised)) calls ↔
      EachStep (step dpiNodes) (fun s a => ∀ ctx, s = .returned ctx → a.1.Served dpiNodes ctx a.2)
        (.returned (.empty initialised)) calls := by
  refine eachStep_congr (I := fun s => ∀ ctx, s = .returned ctx → ctx.WellKept) ?_ ?_ calls _ ?_
  · rintro s ⟨call, answers⟩ t hkept hreports hstep ctx' rfl
    cases s with
    | returned ctx =>
      simp only [step, Option.some.injEq, Outcome.bind_eq_returned_iff, Prod.exists] at hstep
      obtain ⟨code, ctx'', hrun, hctx⟩ := hstep
      cases hctx
      exact (hreports ctx rfl).wellKept (hkept ctx rfl) hrun
    | _ => simp [step] at hstep
  · rintro s ⟨call, answers⟩ t hkept -
    refine forall_congr' fun ctx => forall_congr' fun hctx => ?_
    exact ⟨fun h => h.served (hkept ctx hctx), fun h => h.reportsFailure (hkept ctx hctx)⟩
  · rintro ctx hctx
    cases hctx
    exact DpiContext.wellKept_empty initialised

/-- The registry refuses every request, and nothing is connected. -/
def refusing : Answers where
  registry := fun _ => .error .invalidMessage
  connectWriter := fun _ => .returned false
  connectReader := fun _ => .returned false
  readHeader := fun _ => .returned false
  append := fun _ => .returned false
  close := fun _ => .returned false
  readSegments := fun _ => .returned none

/-- A name that was never created: `DPI_Append` follows the null pointer it has inserted. -/
theorem unknown_buffer_dereferenced :
    ¬ ∀ (dpiNodes : List String) (initialised : Bool) (calls : List (ApiCall × Answers)),
      EachStep (step dpiNodes)
        (fun s a => ∀ ctx, s = .returned ctx → a.1.ReportsFailure dpiNodes ctx a.2)
        (.returned (.empty initialised)) calls := by
  intro h
  obtain ⟨code, ctx, hrun, -⟩ := (eachStep_cons.mp (h [] true [(.append "buffer" [1], refusing)])
    .invalidPointer rfl).1 (.empty true) rfl
  cases hrun

end ApiCall

end DpiLibrary
