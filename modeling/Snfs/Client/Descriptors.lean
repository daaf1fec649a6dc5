import Snfs.Client.Opening
import Snfs.Client.Writing
import Snfs.Library.Runs

/-!
Runs of `my_open`, `my_read`, `my_write` and `my_close` against a conforming server. A
descriptor is found by the handle of its file, so a descriptor is its own as long as no
file is opened that is open already.
-/

namespace Snfs

open Runs

variable {σ : Type} {remote : RemoteCall σ} {volume : σ → Volume}

inductive FileCall where
  | myOpen (name : CString) (flags : Int)
  | myRead (fileId : Int) (numBytes : Nat)
  | myWrite (fileId : Int) (data : List UInt8)
  | myClose (fileId : Int)

structure Returned where
  call : FileCall
  result : Int
  log : List Exchange

def FileStep (remote : RemoteCall σ) : Lib × σ → Returned → Lib × σ → Prop :=
  fun (lib, s) ⟨call, result, log⟩ (lib', s') =>
    match call with
    | .myOpen name flags =>
      myOpen remote.recorded lib (s, []) name flags = (result, lib', s', log)
    | .myRead fileId numBytes => ∃ fuel buffer buffer',
      myRead remote.recorded fuel lib (s, []) fileId buffer numBytes =
        some (result, buffer', lib', s', log)
    | .myWrite fileId data =>
      myWrite remote.recorded lib (s, []) fileId data = (result, lib', s', log)
    | .myClose fileId => myClose lib fileId = (result, lib') ∧ s' = s ∧ log = []

def OpensOther (remote : RemoteCall σ) : Lib × σ → Returned → Prop :=
  fun (lib, s) r =>
    match r.call with
    | .myOpen name _ => ∀ fd ∈ lib.openFilesList, ∀ size s',
        remote.lookup s name ≠ (.ok (fd.fileId, size), s')
    | _ => True

def sinceOpen (fileId : Int) (trace : List Returned) : List Exchange :=
  trace.foldl (fun log r =>
    match r.call with
    | .myOpen _ _ => if r.result = fileId then [] else log
    | .myRead id _ | .myWrite id _ => if id = fileId then log ++ r.log else log
    | .myClose _ => log) []

/-- Requests of one descriptor, with its offsets for reading and writing before and after: each of
them begins where those before it have led. -/
inductive Proceeds (fileId : Int) : Int → Int → List Exchange → Int → Int → Prop
  | nil (r w : Int) : Proceeds fileId r w [] r w
  | read {r w r' w' : Int} {count nread : Nat} {data : List UInt8} {log : List Exchange} :
      Proceeds fileId (wrapInt (r + asInt nread)) w log r' w' →
      Proceeds fileId r w ((.read fileId (intWord r) count, .ok (.read data nread)) :: log) r' w'
  | unread {r w r' w' : Int} {count : Nat} {answer : Except Nat Reply} {log : List Exchange} :
      (∀ data nread, answer ≠ .ok (.read data nread)) → Proceeds fileId r w log r' w' →
      Proceeds fileId r w ((.read fileId (intWord r) count, answer) :: log) r' w'
  | write {r w r' w' : Int} {data : List UInt8} {fsize : Nat} {log : List Exchange} :
      Proceeds fileId r (wrapInt (w + asInt data.length)) log r' w' →
      Proceeds fileId r w
        ((.write fileId (intWord w) data.length data, .ok (.write fsize)) :: log) r' w'
  | unwritten {r w r' w' : Int} {data : List UInt8} {answer : Except Nat Reply}
      {log : List Exchange} :
      (∀ fsize, answer ≠ .ok (.write fsize)) → Proceeds fileId r w log r' w' →
      Proceeds fileId r w ((.write fileId (intWord w) data.length data, answer) :: log) r' w'

/-- No two descriptors have one id, and the requests of each begin at zero and proceed by its own
calls only. -/
structure Independent (lib : Lib) (trace : List Returned) : Prop where
  distinct : (lib.openFilesList.map FileDesc.fileId).Nodup
  proceeds : ∀ fd ∈ lib.openFilesList,
    Proceeds fd.fileId 0 0 (sinceOpen fd.fileId trace) fd.readOffset fd.writeOffset

theorem Proceeds.append {fileId r w r' w' r'' w'' : Int} {log more : List Exchange}
    (first : Proceeds fileId r w log r' w') (second : Proceeds fileId r' w' more r'' w'') :
    Proceeds fileId r w (log ++ more) r'' w'' := by
  induction first with
  | nil => exact second
  | read _ ih => exact .read (ih second)
  | unread none _ ih => exact .unread none (ih second)
  | write _ ih => exact .write (ih second)
  | unwritten none _ ih => exact .unwritten none (ih second)

private theorem read_recorded (s : σ) (log : List Exchange) (fileId : Int) (offset count : Nat) :
    ∃ answer s', s' = (remote s (.read fileId offset count)).2 ∧
      ((∃ data nread, answer = .ok (.read data nread) ∧
          remote.recorded.read (s, log) fileId offset count =
            (some (data, nread), s', log ++ [(.read fileId offset count, answer)])) ∨
        ((∀ data nread, answer ≠ .ok (.read data nread)) ∧
          remote.recorded.read (s, log) fileId offset count =
            (none, s', log ++ [(.read fileId offset count, answer)]))) := by
  refine ⟨(remote s (.read fileId offset count)).1, _, rfl, ?_⟩
  simp only [RemoteCall.read, RemoteCall.recorded]
  rcases remote s (.read fileId offset count) with ⟨_ | (_ | _ | _ | _ | _ | _ | _), s'⟩
  case ok.read => exact .inl ⟨_, _, rfl, rfl⟩
  all_goals exact .inr ⟨fun _ _ same => (by cases same), rfl⟩

private theorem write_recorded (s : σ) (log : List Exchange) (fileId : Int) (offset : Nat)
    (data : List UInt8) :
    ∃ answer s', s' = (remote s (.write fileId offset data.length data)).2 ∧
      ((∃ fsize, answer = .ok (.write fsize) ∧
          remote.recorded.write (s, log) fileId offset data =
            (some fsize, s', log ++ [(.write fileId offset data.length data, answer)])) ∨
        ((∀ fsize, answer ≠ .ok (.write fsize)) ∧
          remote.recorded.write (s, log) fileId offset data =
            (none, s', log ++ [(.write fileId offset data.length data, answer)]))) := by
  refine ⟨(remote s (.write fileId offset data.length data)).1, _, rfl, ?_⟩
  simp only [RemoteCall.write, RemoteCall.recorded]
  rcases remote s (.write fileId offset data.length data) with ⟨_ | (_ | _ | _ | _ | _ | _ | _), s'⟩
  case ok.write => exact .inl ⟨_, rfl, rfl⟩
  all_goals exact .inr ⟨fun _ same => (by cases same), rfl⟩

def Keeps (remote : RemoteCall σ) (P : σ → Prop) : Prop :=
  ∀ s call, call.OfFiles → P s → P (remote s call).2

variable {P : σ → Prop}

private theorem readChunks_proceeds (keeps : Keeps remote P) {fileId : Int} {fuel n r : Nat}
    {counter : Int}
    {buffer : CallerMemory} {fd : FileDesc} {s : σ} {log : List Exchange}
    {e : ReadEnd (σ × List Exchange)} (holds : P s)
    (ends : readChunks remote.recorded fileId fuel n r counter buffer fd (s, log) = some e) :
    P e.state.1 ∧ e.fdesc.fileId = fd.fileId ∧ ∃ more, e.state.2 = log ++ more ∧
      Proceeds fileId fd.readOffset fd.writeOffset more e.fdesc.readOffset e.fdesc.writeOffset := by
  induction fuel generalizing n r counter buffer fd s log with
  | zero =>
      cases n with
      | zero =>
          cases ends
          exact ⟨holds, rfl, [], (List.append_nil _).symm, .nil _ _⟩
      | succ n => cases ends
  | succ fuel ih =>
      cases n with
      | zero =>
          cases ends
          exact ⟨holds, rfl, [], (List.append_nil _).symm, .nil _ _⟩
      | succ n =>
          rw [readChunks] at ends
          obtain ⟨answer, s', after, ⟨data, nread, rfl, read⟩ | ⟨none, read⟩⟩ :=
            @read_recorded _ remote s log fileId (intWord fd.readOffset) (min r (n + 1))
          all_goals
            have kept : P s' := after ▸ keeps s _ trivial holds
            simp only [read] at ends
          · obtain ⟨holds', same, more, logged, proceeds⟩ := ih kept ends
            rw [List.append_assoc, List.singleton_append] at logged
            exact ⟨holds', same, _, logged, .read proceeds⟩
          · cases ends
            exact ⟨kept, rfl, [_], rfl, .unread none (.nil _ _)⟩

private theorem writeChunks_proceeds (keeps : Keeps remote P) {fileId : Int} {fuel r : Nat}
    {counter : Int}
    {rest : List UInt8} {fd : FileDesc} {s : σ} {log : List Exchange} (holds : P s) :
    ∃ result fd' s' more,
      writeChunks remote.recorded fileId fuel r counter rest fd (s, log) =
        (result, fd', s', log ++ more) ∧ P s' ∧ fd'.fileId = fd.fileId ∧
      Proceeds fileId fd.readOffset fd.writeOffset more fd'.readOffset fd'.writeOffset := by
  induction fuel generalizing r counter rest fd s log with
  | zero => exact ⟨_, _, _, [], by rw [List.append_nil]; rfl, holds, rfl, .nil _ _⟩
  | succ fuel ih =>
      rw [writeChunks]
      by_cases none : rest = []
      · rw [if_pos none]
        exact ⟨_, _, _, [], by rw [List.append_nil], holds, rfl, .nil _ _⟩
      · rw [if_neg none]
        obtain ⟨answer, s', after, ⟨fsize, rfl, wrote⟩ | ⟨failed, wrote⟩⟩ :=
          @write_recorded _ remote s log fileId (intWord fd.writeOffset)
            (rest.take (min r rest.length))
        all_goals
          have kept : P s' := after ▸ keeps s _ trivial holds
          simp only [wrote]
        · have length : (rest.take (min r rest.length)).length = min r rest.length := by
            rw [List.length_take]
            omega
          obtain ⟨result, fd', s'', more, loop, holds', same, proceeds⟩ :=
            @ih (min r rest.length) (wrapInt (counter + asInt (min r rest.length)))
              (rest.drop (min r rest.length))
              { fd with size := fsize
                        writeOffset := wrapInt (fd.writeOffset + asInt (min r rest.length)) }
              s' (log ++ [(.write fileId (intWord fd.writeOffset)
                (rest.take (min r rest.length)).length (rest.take (min r rest.length)),
                .ok (.write fsize))]) kept
          rw [List.append_assoc, List.singleton_append] at loop
          refine ⟨result, fd', s'', _, loop, holds', same, .write ?_⟩
          rw [length]
          exact proceeds
        · exact ⟨_, _, _, [_], rfl, kept, rfl, .unwritten failed (.nil _ _)⟩

/-- At most the offsets of one descriptor have changed, by the requests of the call. -/
def Moved (lib : Lib) (fileId : Int) (lib' : Lib) (log : List Exchange) : Prop :=
  (lib' = lib ∧ log = []) ∨ ∃ fd fd', queueNodeGet lib.openFilesList fileId = some fd ∧
    fd'.fileId = fd.fileId ∧
    lib' = { lib with openFilesList := queueNodeSet lib.openFilesList fileId fd' } ∧
    Proceeds fileId fd.readOffset fd.writeOffset log fd'.readOffset fd'.writeOffset

private theorem myRead_moved (keeps : Keeps remote P) {fuel : Nat} {lib lib' : Lib} {s s' : σ}
    {fileId : Int}
    {buffer buffer' : CallerMemory} {numBytes : Nat} {result : Int} {log : List Exchange}
    (holds : P s) (read : myRead remote.recorded fuel lib (s, []) fileId buffer numBytes =
      some (result, buffer', lib', s', log)) : P s' ∧ Moved lib fileId lib' log := by
  rw [myRead] at read
  split at read
  · cases read
    exact ⟨holds, .inl ⟨rfl, rfl⟩⟩
  · split at read
    · cases read
      exact ⟨holds, .inl ⟨rfl, rfl⟩⟩
    · rename_i fd found
      dsimp only at read
      split at read
      · cases read
        exact ⟨holds, .inl ⟨rfl, rfl⟩⟩
      · obtain ⟨⟨result', buffer'', fd', s'', log'⟩, ends, same⟩ := Option.map_eq_some_iff.mp read
        obtain ⟨kept, id, more, logged, proceeds⟩ := readChunks_proceeds keeps holds ends
        cases same
        dsimp only at kept id logged proceeds
        rw [logged, List.nil_append]
        exact ⟨kept, .inr ⟨fd, fd', found, id, rfl, proceeds⟩⟩

private theorem myWrite_moved (keeps : Keeps remote P) {lib lib' : Lib} {s s' : σ} {fileId : Int}
    {data : List UInt8} {result : Int} {log : List Exchange} (holds : P s)
    (wrote : myWrite remote.recorded lib (s, []) fileId data = (result, lib', s', log)) :
    P s' ∧ Moved lib fileId lib' log := by
  rw [myWrite] at wrote
  split at wrote
  · cases wrote
    exact ⟨holds, .inl ⟨rfl, rfl⟩⟩
  · split at wrote
    · cases wrote
      exact ⟨holds, .inl ⟨rfl, rfl⟩⟩
    · rename_i fd found
      obtain ⟨result, fd', s'', more, loop, kept, id, proceeds⟩ := @writeChunks_proceeds _ remote _
        keeps fileId data.length (min data.length maxWriteData) 0 data fd s [] holds
      rw [loop, List.nil_append] at wrote
      cases wrote
      exact ⟨kept, .inr ⟨fd, fd', found, id, rfl, proceeds⟩⟩

theorem myOpen_refused {lib : Lib} {s : σ} {name : CString} {flags : Int}
    (refused : ¬ (lib.libInitted = true ∧ ¬ maxOpenFiles ≤ lib.openFiles ∧ myparse name = 0)) :
    myOpen remote lib s name flags = (-1, lib, s) := by
  rw [myOpen]
  split
  · rfl
  · rename_i initted
    split
    · rfl
    · rename_i room
      split
      · rfl
      · rename_i accepted
        exact absurd ⟨by simpa using initted, room, not_not.mp accepted⟩ refused

/-- A descriptor that has been opened has the number of a node, which the lookup has found or which
is a new one. -/
theorem myOpen_returned (conforms : Conforms remote volume) (lib : Lib) {s : σ}
    (fits : (volume s).Fits) (name : CString) (flags : Int) :
    ∃ s', (volume s').Fits ∧
      (∀ a, (volume s).nodes a ≠ none → (volume s').nodes a ≠ none) ∧
      (myOpen remote lib s name flags = (-1, lib, s') ∨ ∃ (a : Nat) (fsize : Nat),
        myOpen remote lib s name flags = ((a : Int), lib.enqueue a fsize, s') ∧
        (volume s').nodes a ≠ none ∧
        ((∃ size s₁, remote.lookup s name = (.ok ((a : Int), size), s₁)) ∨
          (volume s).nodes a = none)) := by
  by_cases ready : lib.libInitted = true ∧ ¬ maxOpenFiles ≤ lib.openFiles ∧ myparse name = 0
  · obtain ⟨initted, room, accepted⟩ := ready
    obtain ⟨s₁, same, ⟨a, node, isNode, -, found⟩ | ⟨-, word, failed⟩⟩ :=
      conforms.lookup_cases fits name
    · refine ⟨s₁, same ▸ fits, fun b => same ▸ id, .inr ⟨a, node.size,
        myOpen_found initted room accepted found, ?_, .inl ⟨_, _, found⟩⟩⟩
      rw [same, isNode]
      exact Option.some_ne_none node
    · rcases myOpen_missing_cases conforms flags fits initted room accepted same failed with
        ⟨s', same', none⟩ | ⟨parent, a, s', -, fits', -, made, eq⟩
      · exact ⟨s', same' ▸ fits, fun b => same' ▸ id, .inl none⟩
      · obtain ⟨entries, -, rfl, -, -, after⟩ := Volume.make_some made
        refine ⟨s', fits', fun b some => ?_, .inr ⟨_, _, eq, ?_, .inr ?_⟩⟩
        · rw [after]
          exact Volume.nodes_addEntry_ne_none some _ _ _ _
        · rw [after, Volume.nodes_addEntry, if_pos rfl]
          exact Option.some_ne_none _
        · exact fits.fresh _ (Nat.le_refl _)
  · exact ⟨s, fits, fun b => id, .inl (myOpen_refused ready)⟩

theorem Conforms.keeps (conforms : Conforms remote volume) (v : Volume) :
    Keeps remote fun s => (volume s).Fits ∧ ∀ a, v.nodes a ≠ none → (volume s).nodes a ≠ none := by
  rintro s call ofFiles ⟨fits, later⟩
  obtain ⟨answered, fits'⟩ := conforms s call ofFiles fits
  refine ⟨fits', fun a some => ?_⟩
  have before := later a some
  generalize volume (remote s call).2 = v' at answered ⊢
  generalize (remote s call).1 = answer at answered
  cases answered with
  | found | unnamed | missing | read | unread | unwritten | uncreated => exact before
  | written file => exact Volume.nodes_put_ne_none before _ _ _
  | created made =>
      obtain ⟨entries, -, -, -, -, rfl⟩ := Volume.make_some made
      exact Volume.nodes_addEntry_ne_none before _ _ _ _

private theorem map_queueNodeSet (queue : List FileDesc) {id : Int} {fd : FileDesc}
    (same : fd.fileId = id) :
    (queueNodeSet queue id fd).map FileDesc.fileId = queue.map FileDesc.fileId := by
  induction queue with
  | nil => rfl
  | cons first rest ih =>
      rw [queueNodeSet]
      by_cases here : first.fileId = id
      · rw [if_pos here, List.map_cons, List.map_cons, same, here]
      · rw [if_neg here, List.map_cons, List.map_cons, ih]

private theorem mem_queueNodeSet {queue : List FileDesc} {id : Int} {fd d : FileDesc}
    (distinct : (queue.map FileDesc.fileId).Nodup) (member : d ∈ queueNodeSet queue id fd) :
    d = fd ∨ (d ∈ queue ∧ d.fileId ≠ id) := by
  induction queue with
  | nil => cases member
  | cons first rest ih =>
      rw [List.map_cons, List.nodup_cons] at distinct
      rw [queueNodeSet] at member
      by_cases here : first.fileId = id
      · rw [if_pos here, List.mem_cons] at member
        refine member.imp_right fun later => ⟨List.mem_cons_of_mem _ later, fun same => ?_⟩
        exact distinct.1 (List.mem_map.mpr ⟨d, later, same.trans here.symm⟩)
      · rw [if_neg here, List.mem_cons] at member
        rcases member with rfl | later
        · exact .inr ⟨List.mem_cons_self, here⟩
        · exact (ih distinct.2 later).imp_right fun found => ⟨List.mem_cons_of_mem _ found.1, found.2⟩

private theorem queueNodeGet_mem {queue : List FileDesc} {id : Int} {fd : FileDesc}
    (found : queueNodeGet queue id = some fd) : fd ∈ queue :=
  List.mem_of_find?_eq_some found

theorem sinceOpen_snoc (id : Int) (trace : List Returned) (r : Returned) :
    sinceOpen id (trace ++ [r]) =
      match r.call with
      | .myOpen _ _ => if r.result = id then [] else sinceOpen id trace
      | .myRead fileId _ | .myWrite fileId _ =>
        if fileId = id then sinceOpen id trace ++ r.log else sinceOpen id trace
      | .myClose _ => sinceOpen id trace := by
  rw [sinceOpen, List.foldl_append]
  rfl

namespace Independent

variable {lib lib' : Lib} {trace : List Returned}

theorem moved (h : Independent lib trace) {id result : Int} {call : FileCall} {log : List Exchange}
    (moves : Moved lib id lib' log)
    (own : ∀ d, sinceOpen d (trace ++ [⟨call, result, log⟩]) =
      if id = d then sinceOpen d trace ++ log else sinceOpen d trace) :
    Independent lib' (trace ++ [⟨call, result, log⟩]) ∧
      lib'.openFilesList.map FileDesc.fileId = lib.openFilesList.map FileDesc.fileId := by
  rcases moves with ⟨rfl, rfl⟩ | ⟨fd, fd', found, same, rfl, proceeds⟩
  · refine ⟨⟨h.distinct, fun d member => ?_⟩, rfl⟩
    rw [own, List.append_nil, ite_self]
    exact h.proceeds d member
  · have here := queueNodeGet_id found
    have ids := map_queueNodeSet lib.openFilesList (same.trans here)
    refine ⟨⟨ids ▸ h.distinct, fun d member => ?_⟩, ids⟩
    rcases mem_queueNodeSet h.distinct member with rfl | ⟨before, other⟩
    · have old := h.proceeds fd (queueNodeGet_mem found)
      rw [here] at old
      rw [same.trans here, own, if_pos rfl]
      exact old.append proceeds
    · rw [own, if_neg (Ne.symm other)]
      exact h.proceeds d before

theorem opened (h : Independent lib trace) {a : Int} {fsize : Nat} {name : CString} {flags : Int}
    {log : List Exchange} (fresh : ∀ fd ∈ lib.openFilesList, fd.fileId ≠ a) :
    Independent (lib.enqueue a fsize) (trace ++ [⟨.myOpen name flags, a, log⟩]) where
  distinct := by
    rw [Lib.enqueue, List.map_append, List.perm_append_comm.nodup_iff]
    refine List.nodup_cons.mpr ⟨fun member => ?_, h.distinct⟩
    obtain ⟨fd, member, same⟩ := List.mem_map.mp member
    exact fresh fd member same
  proceeds d member := by
    rw [Lib.enqueue, List.mem_append, List.mem_singleton] at member
    rw [sinceOpen_snoc]
    rcases member with before | rfl
    · rw [if_neg (Ne.symm (fresh d before))]
      exact h.proceeds d before
    · rw [if_pos rfl]
      exact .nil 0 0

theorem closed (h : Independent lib trace) {id result : Int} {log : List Exchange}
    (closes : myClose lib id = (result, lib')) :
    Independent lib' (trace ++ [⟨.myClose id, result, log⟩]) ∧
      ∀ fd ∈ lib'.openFilesList, fd ∈ lib.openFilesList := by
  have same : lib' = lib ∨ lib'.openFilesList = queueNodeRemove lib.openFilesList id := by
    rw [myClose] at closes
    split at closes
    · cases closes
      exact .inl rfl
    · split at closes
      · cases closes
        exact .inl rfl
      · cases closes
        exact .inr rfl
  have sub : lib'.openFilesList.Sublist lib.openFilesList := by
    rcases same with rfl | removed
    · exact .refl _
    · rw [removed]
      exact List.eraseP_sublist
  refine ⟨⟨(sub.map _).nodup h.distinct, fun d member => ?_⟩, fun d member => sub.subset member⟩
  rw [sinceOpen_snoc]
  exact h.proceeds d (sub.subset member)

end Independent

structure Held (volume : σ → Volume) (lib : Lib) (s : σ) (trace : List Returned) : Prop where
  independent : Independent lib trace
  fits : (volume s).Fits
  node : ∀ fd ∈ lib.openFilesList, ∃ a : Nat, fd.fileId = a ∧ (volume s).nodes a ≠ none

private theorem recorded_conforms (conforms : Conforms remote volume) :
    Conforms remote.recorded fun p => volume p.1 :=
  fun (s, _) call => conforms s call

private theorem lookup_recorded (remote : RemoteCall σ) (s : σ) (log : List Exchange)
    (path : CString) :
    (remote.recorded.lookup (s, log) path).1 = (remote.lookup s path).1 := by
  simp only [RemoteCall.lookup, RemoteCall.recorded]
  rcases remote s (.lookup path) with ⟨_ | (_ | _ | _ | _ | _ | _ | _), s'⟩ <;> rfl

/-- What an open returns is no descriptor that is open. -/
theorem Held.opened (conforms : Conforms remote volume) {lib lib' : Lib} {s s' : σ}
    {trace : List Returned} (held : Held volume lib s trace) {name : CString} {flags result : Int}
    {log : List Exchange}
    (other : ∀ fd ∈ lib.openFilesList, ∀ size s', remote.lookup s name ≠ (.ok (fd.fileId, size), s'))
    (ran : myOpen remote.recorded lib (s, []) name flags = (result, lib', s', log)) :
    Held volume lib' s' (trace ++ [⟨.myOpen name flags, result, log⟩]) ∧
      (result ≠ -1 → ∀ fd ∈ lib.openFilesList, fd.fileId ≠ result) := by
  obtain ⟨⟨s₁, log₁⟩, fits, later, refused | ⟨a, fsize, opened, isNode, origin⟩⟩ :=
    myOpen_returned (recorded_conforms conforms) lib (s := (s, [])) held.fits name flags
  · rw [refused] at ran
    cases ran
    refine ⟨⟨⟨held.independent.distinct, fun d member => ?_⟩, fits, fun d member => ?_⟩,
      fun failed => absurd rfl failed⟩
    · obtain ⟨b, id, -⟩ := held.node d member
      have other : (-1 : Int) ≠ d.fileId := by omega
      rw [sinceOpen_snoc, if_neg other]
      exact held.independent.proceeds d member
    · obtain ⟨b, id, some⟩ := held.node d member
      exact ⟨b, id, later b some⟩
  · rw [opened] at ran
    cases ran
    have fresh : ∀ fd ∈ lib.openFilesList, fd.fileId ≠ (a : Int) := fun fd member same => by
      rcases origin with ⟨size, s₂, found⟩ | new
      · have answer := lookup_recorded remote s [] name
        rw [found] at answer
        exact other fd member size _ (Prod.ext (same ▸ answer.symm) rfl)
      · obtain ⟨b, id, some⟩ := held.node fd member
        obtain rfl : b = a := Int.natCast_inj.mp (id.symm.trans same)
        exact some new
    refine ⟨⟨held.independent.opened fresh, fits, fun d member => ?_⟩, fun _ => fresh⟩
    rw [Lib.enqueue, List.mem_append, List.mem_singleton] at member
    rcases member with before | rfl
    · obtain ⟨b, id, some⟩ := held.node d before
      exact ⟨b, id, later b some⟩
    · exact ⟨a, rfl, isNode⟩

theorem Held.moved {lib lib' : Lib} {s s' : σ} {trace : List Returned}
    (held : Held volume lib s trace) {id result : Int} {call : FileCall} {log : List Exchange}
    (moves : Moved lib id lib' log)
    (kept : (volume s').Fits ∧ ∀ a, (volume s).nodes a ≠ none → (volume s').nodes a ≠ none)
    (own : ∀ d, sinceOpen d (trace ++ [⟨call, result, log⟩]) =
      if id = d then sinceOpen d trace ++ log else sinceOpen d trace) :
    Held volume lib' s' (trace ++ [⟨call, result, log⟩]) := by
  obtain ⟨independent, ids⟩ := held.independent.moved moves own
  refine ⟨independent, kept.1, fun d member => ?_⟩
  obtain ⟨d', before, same⟩ := List.mem_map.mp (ids ▸ List.mem_map_of_mem member)
  obtain ⟨b, id, some⟩ := held.node d' before
  exact ⟨b, same ▸ id, kept.2 b some⟩

theorem Held.step (conforms : Conforms remote volume) {lib lib' : Lib} {s s' : σ}
    {trace : List Returned} (held : Held volume lib s trace) {r : Returned}
    (other : OpensOther remote (lib, s) r) (step : FileStep remote (lib, s) r (lib', s')) :
    Held volume lib' s' (trace ++ [r]) := by
  have start : (volume s).Fits ∧ ∀ a, (volume s).nodes a ≠ none → (volume s).nodes a ≠ none :=
    ⟨held.fits, fun _ => id⟩
  obtain ⟨call, result, log⟩ := r
  cases call with
  | myOpen name flags => exact (held.opened conforms other step).1
  | myRead fileId numBytes =>
      obtain ⟨fuel, buffer, buffer', read⟩ := step
      obtain ⟨kept, moves⟩ := myRead_moved (conforms.keeps (volume s)) start read
      exact held.moved moves kept fun d => sinceOpen_snoc d trace _
  | myWrite fileId data =>
      obtain ⟨kept, moves⟩ := myWrite_moved (conforms.keeps (volume s)) start step
      exact held.moved moves kept fun d => sinceOpen_snoc d trace _
  | myClose fileId =>
      obtain ⟨closes, rfl, rfl⟩ := step
      obtain ⟨independent, sub⟩ := held.independent.closed closes
      exact ⟨independent, held.fits, fun d member => held.node d (sub d member)⟩

/-- As long as no file is opened that is open already, every descriptor has an id of its own, its
requests begin at zero and proceed by its own calls only, and what is opened gets an id that is not in
use. -/
theorem descriptors_independent (conforms : Conforms remote volume) {start : σ}
    (fits : (volume start).Fits) {trace : List Returned} {lib : Lib} {s : σ}
    (run : Run (Guarded (OpensOther remote) (FileStep remote)) (myInitLib, start) trace (lib, s)) :
    Independent lib trace ∧ ∀ name flags result log lib' s',
      Guarded (OpensOther remote) (FileStep remote) (lib, s) ⟨.myOpen name flags, result, log⟩
        (lib', s') →
      result ≠ -1 → ∀ fd ∈ lib.openFilesList, fd.fileId ≠ result := by
  have empty : Held volume myInitLib start [] :=
    ⟨⟨List.nodup_nil, fun _ member => by cases member⟩, fits, fun _ member => by cases member⟩
  have held : Held volume lib s trace :=
    run.trace_invariant (I := fun trace p => Held volume p.1 p.2 trace) empty
      fun _ _ _ _ held next => held.step conforms next.1 next.2
  exact ⟨held.independent, fun _ _ _ _ _ _ next => (held.opened conforms next.1 next.2).2⟩

def openedOnce : Returned :=
  ⟨.myOpen [47, 100, 47, 120] 0, 3, [(.lookup [47, 100, 47, 120], .ok (.lookup 3 0))]⟩

theorem fileStep_openedOnce (lib : Lib) (initted : lib.libInitted = true)
    (room : ¬ maxOpenFiles ≤ lib.openFiles) :
    FileStep volumeServer (lib, fileInDir) openedOnce (lib.enqueue 3 0, fileInDir) := by
  have found : volumeServer.recorded.lookup (fileInDir, []) [47, 100, 47, 120] =
      (.ok (3, 0), (fileInDir, openedOnce.log)) := rfl
  exact myOpen_found initted room (by decide) found

def wroteTwo : Returned := ⟨.myWrite 3 [1, 2], 2, [(.write 3 0 2 [1, 2], .ok (.write 2))]⟩

private theorem run_open_write : Run (Guarded (OpensOther volumeServer) (FileStep volumeServer))
    (myInitLib, fileInDir) [openedOnce, wroteTwo]
    (⟨true, [⟨3, 2, 0, 2⟩], 1⟩, fileInDir.put 3 (.file [1, 2]) 0) := by
  have first : Run (Guarded (OpensOther volumeServer) (FileStep volumeServer))
      (myInitLib, fileInDir) [openedOnce] (myInitLib.enqueue 3 0, fileInDir) := by
    refine Run.nil.snoc ⟨fun fd member => ?_, fileStep_openedOnce myInitLib rfl (by decide)⟩
    cases member
  exact first.snoc (e := wroteTwo) ⟨trivial, rfl⟩

theorem descriptors_independent_open_write :
    Independent ⟨true, [⟨3, 2, 0, 2⟩], 1⟩ [openedOnce, wroteTwo] :=
  (descriptors_independent volumeServer_conforms fileInDir_fits run_open_write).1

/-- The second descriptor of a file has the id of the first one. -/
theorem opened_twice_shares_descriptor :
    ¬ ∀ trace lib s, Run (FileStep volumeServer) (myInitLib, fileInDir) trace (lib, s) →
      Independent lib trace := by
  intro independent
  have twice := independent _ _ _ ((Run.nil.snoc (fileStep_openedOnce myInitLib rfl (by decide))).snoc
    (fileStep_openedOnce _ rfl (by decide)))
  exact absurd twice.distinct (by decide)

end Snfs
