import Vejas.Connectors.Wire
import Vejas.Governance.World
import Vejas.Json.Reading
import Vejas.Runtime.Detect

/-! The snapshots of detect units as bytes: one line of JSON, then the state of the engine as it
is. A unit restores the snapshot of the program it compiled and of no other. -/

namespace Vejas.Runtime.DetectState
open Rust Json Vjs Connectors Governance

/-- A detect unit's snapshot as stored: the hash of its source, the stream sequence it stands for,
when it was taken and the engine's bytes. -/
@[ext]
structure Stored where
  version : String
  seq : UInt64
  takenAt : UInt64
  state : Bytes

abbrev Objects := String → Option Bytes

def Objects.put (store : Objects) (unit : String) (bytes : Bytes) : Objects :=
  fun name => if name = unit then some bytes else store name

def snapshotHeader (snap : Stored) : Value :=
  .obj [("version", .string snap.version), ("seq", .number (.posInt snap.seq)),
    ("taken_at", .number (.posInt snap.takenAt)), ("bytes", .ofNat snap.state.length)]

def snapshotBytes [External] (snap : Stored) : Bytes := bytesOf (snapshotHeader snap).render ++ byte '\n' :: snap.state

def snapshotPut [External] (store : Objects) (unit : String) (snap : Stored) (put : Put) (e : String) :
    Except String Unit × Objects :=
  match put with
  | .ok => (.ok (), store.put unit (snapshotBytes snap))
  | .lost => (.error ("snapshot put: " ++ e), store.put unit (snapshotBytes snap))
  | .failed => (.error ("snapshot put: " ++ e), store)

def readSnapshot (jsonError : Bytes → String) (bytes : Bytes) : Except String Stored :=
  match bytes.idxOf? (byte '\n') with
  | none => .error "snapshot without a header"
  | some nl =>
    match fromSlice (bytes.take nl) with
    | none => .error ("snapshot header: " ++ jsonError (bytes.take nl))
    | some header => .ok {
        version := (header.text "version").getD ""
        seq := ((header.index "seq").asU64.getD 0).toUInt64
        takenAt := ((header.index "taken_at").asU64.getD 0).toUInt64
        state := bytes.drop (nl + 1) }

def snapshotGet (jsonError : Bytes → String) (got : Except String (Option Bytes)) : Except String (Option Stored) :=
  match got with
  | .error e => .error ("snapshot get: " ++ e)
  | .ok none => .ok none
  | .ok (some bytes) => (readSnapshot jsonError bytes).map some

/-- The embedded engine: the programs it compiles and the states it takes. -/
structure Engine where
  Program : Type
  compile : String → Except String Program
  stateful : Program → Bool
  restore : Program → Bytes → Except String Program

/-- An attempt up to its consumer: the program it runs, and the sequence it resumes at. -/
structure Attempt (E : Engine) where
  program : E.Program
  resumeSeq : Option UInt64

def resume (E : Engine) (program : E.Program) (version : String) (snap : Option Stored) :
    Option Bytes × Except String (Attempt E) :=
  match snap with
  | some snap =>
    if snap.version = version then
      (some snap.state, match E.restore program snap.state with
        | .error e => .error ("restore snapshot: " ++ e)
        | .ok restored => .ok ⟨restored, some (snap.seq + 1)⟩)
    else (none, .ok ⟨program, none⟩)
  | none => (none, .ok ⟨program, none⟩)

def attempt (E : Engine) (jsonError : Bytes → String) (src : String) (store : Option (Except String (Option Bytes))) :
    Option Bytes × Except String (Attempt E) :=
  match E.compile src with
  | .error e => (none, .error e)
  | .ok program =>
    let version := hashContent src
    match store.filter fun _ => E.stateful program with
    | none => (none, .ok ⟨program, none⟩)
    | some got =>
      match snapshotGet jsonError got with
      | .error e => (none, .error e)
      | .ok snap => resume E program version snap

theorem idxOf?_first {b : UInt8} {xs : Bytes} (h : b ∉ xs) (ys : Bytes) : (xs ++ b :: ys).idxOf? b = some xs.length := by
  induction xs with
  | nil => simp [List.idxOf?_cons]
  | cons x xs ih =>
    have hx : x ≠ b := fun heq => h (heq ▸ List.mem_cons_self ..)
    have hxs : b ∉ xs := fun hin => h (List.mem_cons_of_mem _ hin)
    rw [List.cons_append, List.idxOf?_cons, ih hxs]
    simp [hx]

theorem exact_header (snap : Stored) : Exact 1 (snapshotHeader snap) := by
  apply Exact.obj
  intro p hp
  simp only [List.mem_cons, List.not_mem_nil, or_false] at hp
  rcases hp with rfl | rfl | rfl | rfl
  · exact .string _ _
  · exact .posInt _ _
  · exact .posInt _ _
  · exact .posInt _ _

theorem newline_not_mem_header [External] (snap : Stored) : byte '\n' ∉ bytesOf (snapshotHeader snap).render := by
  intro hin
  rw [bytesOf_eq_utf8] at hin
  have hchar := chars_printable (exact_header snap) _ (mem_utf8_ascii hin (by decide))
  exact absurd hchar (by decide)

theorem header_fields (snap : Stored) :
    (snapshotHeader snap).text "version" = some snap.version ∧
      ((snapshotHeader snap).index "seq").asU64 = some snap.seq.toNat ∧
      ((snapshotHeader snap).index "taken_at").asU64 = some snap.takenAt.toNat := by
  have hget : ∀ k v, (k, v) ∈ [("version", Value.string snap.version), ("seq", .number (.posInt snap.seq)),
      ("taken_at", .number (.posInt snap.takenAt)), ("bytes", .ofNat snap.state.length)] →
      (snapshotHeader snap).index k = v := by
    intro k v h
    show (Map.get? (Map.ofEntries _) k).getD .null = v
    rw [Map.get?_ofEntries (by simp) h]
    rfl
  refine ⟨?_, ?_, ?_⟩
  · rw [Value.text, hget "version" (.string snap.version) (by simp)]
    rfl
  · rw [hget "seq" (.number (.posInt snap.seq)) (by simp)]
    rfl
  · rw [hget "taken_at" (.number (.posInt snap.takenAt)) (by simp)]
    rfl

theorem readSnapshot_bytes [External] (jsonError : Bytes → String) (snap : Stored) :
    readSnapshot jsonError (snapshotBytes snap) = .ok snap := by
  have hline : (snapshotBytes snap).idxOf? (byte '\n') = some (bytesOf (snapshotHeader snap).render).length :=
    idxOf?_first (newline_not_mem_header snap) _
  have hhead : (snapshotBytes snap).take (bytesOf (snapshotHeader snap).render).length =
      bytesOf (snapshotHeader snap).render := List.take_left
  have hstate : (snapshotBytes snap).drop ((bytesOf (snapshotHeader snap).render).length + 1) = snap.state := by
    simp [snapshotBytes]
  have hheader : fromSlice (bytesOf (snapshotHeader snap).render) = some (snapshotHeader snap) := by
    rw [fromSlice_bytesOf]
    exact fromStr_render (exact_header snap) (by decide)
  obtain ⟨hversion, hseq, htaken⟩ := header_fields snap
  simp only [readSnapshot, hline, hhead, hheader, hversion, hseq, htaken, hstate, Option.getD_some]
  simp

def Stored.brief (snap : Stored) : Snapshot := ⟨snap.version, snap.seq.toNat⟩

theorem of_snapshotGet {jsonError : Bytes → String} {got : Except String (Option Bytes)} {snap : Stored}
    (h : snapshotGet jsonError got = .ok (some snap)) :
    ∃ bytes, got = .ok (some bytes) ∧ readSnapshot jsonError bytes = .ok snap := by
  cases got with
  | error e => cases h
  | ok found =>
    cases found with
    | none => cases h
    | some bytes =>
      cases hr : readSnapshot jsonError bytes with
      | error e =>
        rw [snapshotGet, hr] at h
        cases h
      | ok st =>
        rw [snapshotGet, hr] at h
        cases h
        exact ⟨bytes, rfl, hr⟩

theorem resume_handed {E : Engine} {program : E.Program} {version : String} {snap : Option Stored} {state : Bytes} :
    (resume E program version snap).1 = some state ↔ ∃ st, snap = some st ∧ st.version = version ∧ st.state = state := by
  cases snap with
  | none => simp [resume]
  | some st =>
    by_cases hv : st.version = version <;> simp [resume, hv]

theorem resume_own {E : Engine} {program : E.Program} {u : DetectUnit} {snap : Option Stored} {s : Detect}
    (h : s.snapshot = snap.map Stored.brief) :
    (resume E program u.version snap).1.isSome = (s.ownSnapshot u true).isSome := by
  unfold Detect.ownSnapshot
  rw [h, if_pos rfl]
  cases snap with
  | none => rfl
  | some st =>
    by_cases hv : st.version = u.version <;> simp [resume, Stored.brief, hv]

theorem attempt_handed {E : Engine} {jsonError : Bytes → String} {src : String} {store : Option (Except String (Option Bytes))}
    {state : Bytes} (h : (attempt E jsonError src store).1 = some state) :
    ∃ program bytes snap, E.compile src = .ok program ∧ store = some (.ok (some bytes)) ∧
      readSnapshot jsonError bytes = .ok snap ∧ snap.version = hashContent src ∧ snap.state = state := by
  unfold attempt at h
  cases hc : E.compile src with
  | error e =>
    rw [hc] at h
    cases h
  | ok program =>
    simp only [hc] at h
    cases hs : store.filter fun _ => E.stateful program with
    | none =>
      rw [hs] at h
      cases h
    | some got =>
      simp only [hs] at h
      have hstore : store = some got := (Option.filter_eq_some_iff.mp hs).1
      cases hg : snapshotGet jsonError got with
      | error e =>
        rw [hg] at h
        cases h
      | ok snap =>
        simp only [hg] at h
        obtain ⟨st, rfl, hversion, hstate⟩ := resume_handed.mp h
        obtain ⟨bytes, rfl, hread⟩ := of_snapshotGet hg
        exact ⟨program, bytes, st, rfl, hstore, hread, hversion, hstate⟩

theorem attempt_own [External] {E : Engine} (jsonError : Bytes → String) {src : String} {program : E.Program} {snap : Stored}
    (hc : E.compile src = .ok program) (hs : E.stateful program = true) (hv : snap.version = hashContent src) :
    (attempt E jsonError src (some (.ok (some (snapshotBytes snap))))).1 = some snap.state := by
  have hread : snapshotGet jsonError (.ok (some (snapshotBytes snap))) = .ok (some snap) := by
    rw [snapshotGet, readSnapshot_bytes]
    rfl
  have hfilter : ∀ got : Except String (Option Bytes), (some got).filter (fun _ => E.stateful program) = some got := by
    simp [hs]
  simp only [attempt, hc, hfilter, hread, resume, hv, if_true]

/-- What was put is what is got, and no unit is handed the state of another program. -/
theorem snapshot_round_trip [External] (jsonError : Bytes → String) :
    (∀ (store : Objects) unit snap put e, put ≠ .failed →
      snapshotGet jsonError (.ok ((snapshotPut store unit snap put e).2 unit)) = .ok (some snap)) ∧
    ∀ (E : Engine) src store state, (attempt E jsonError src store).1 = some state →
      ∃ program bytes snap, E.compile src = .ok program ∧ store = some (.ok (some bytes)) ∧
        readSnapshot jsonError bytes = .ok snap ∧ snap.version = hashContent src ∧ snap.state = state := by
  refine ⟨fun store unit snap put e hput => ?_, fun E src store state h => attempt_handed h⟩
  have hstored : (snapshotPut store unit snap put e).2 unit = some (snapshotBytes snap) := by
    cases put with
    | failed => exact absurd rfl hput
    | ok | lost => exact if_pos rfl
  rw [hstored, snapshotGet, readSnapshot_bytes]
  rfl

def recorder : Engine where
  Program := Bytes
  compile src := .ok (bytesOf src)
  stateful _ := true
  restore _ state := .ok state

def breaks (src : String) : Stored := ⟨hashContent src, 7, 9, [byte '\n', byte '\n']⟩

theorem snapshot_round_trip_breaks :
    @snapshotGet (fun _ => "") (.ok ((@snapshotPut ascii (fun _ => none) "u" (breaks "s") .lost "timeout").2 "u")) =
      .ok (some (breaks "s")) ∧
    ∃ program bytes snap, recorder.compile "s" = .ok program ∧
      some (.ok (some (@snapshotBytes ascii (breaks "s")))) = some (Except.ok (some bytes) : Except String (Option Bytes)) ∧
      readSnapshot (fun _ => "") bytes = .ok snap ∧ snap.version = hashContent "s" ∧ snap.state = [byte '\n', byte '\n'] := by
  have h := @snapshot_round_trip ascii fun _ => ""
  refine ⟨h.1 _ _ _ .lost _ (by decide), h.2 recorder "s" _ _ ?_⟩
  exact @attempt_own ascii recorder _ "s" _ (breaks "s") rfl rfl rfl

end Vejas.Runtime.DetectState
