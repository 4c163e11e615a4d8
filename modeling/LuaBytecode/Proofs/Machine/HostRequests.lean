import LuaBytecode.Proofs.Machine.HostCalls
/-!
# Host requests keep the frame stack in order

The host drives a machine by requests (`Request`): it pushes, pops and reads the values of its
frame, moves its top, loads and executes chunks, calls the functions it has pushed with or
without protection, and reads and sets globals and table fields. The machines it reaches from
`Machine.boot d`, whether each request succeeded or failed (`Machine.Reachable d`), are sound
(`Machine.Reachable.sound`): they use at least one and at most `max 1 d` frames, and every open
cell points at a frame running a Lua function that lists it. Each request keeps soundness
(`Request.serve_guards`), from what each operation of the machine guards.

`host_frame_discipline` collects what the host sees on a reachable machine: the depth stays in
bounds; an execution gives back the depth and the top it started with, whether it succeeded or
not; a protected call made from a frame that runs no Lua function does what `Protected` says;
and one with a positive message handler fails with the machine unchanged. The same law of
protected calls holds on every sound machine, in particular on the frame of a library function
such as `pcall`, which is entered from a sound machine and leaves it sound.
-/

namespace LuaBytecode

/-- What the host asks of a machine. -/
inductive Request where
  | push (v : Value)
  | pop
  | get (idx : Int)
  | setTop (idx : Int)
  | insert (idx : Int)
  | load (p : Proto)
  | execute (p : Proto)
  | call (nArgs : Nat) (nResults : Int)
  | pcall (nArgs : Nat) (nResults msgh : Int)
  | getTable (idx : Int) (k : Value)
  | getGlobal (name : String)
  | setGlobal (name : String) (v : Value)

namespace Request

/-- Serves a request, dropping what it answers. -/
def serve : Request → VM Unit
  | push v => VM.push v
  | pop => discard VM.pop
  | get idx => discard (VM.getAt idx)
  | setTop idx => VM.setTopAt idx
  | insert idx => VM.insert idx
  | load p => VM.load p
  | execute p => discard (VM.execute p)
  | call nArgs nResults => VM.call nArgs nResults
  | pcall nArgs nResults msgh => discard (VM.pcall nArgs nResults msgh)
  | getTable idx k => discard (VM.getAt idx >>= fun t => VM.getTable t k)
  | getGlobal name => discard (VM.getGlobal name)
  | setGlobal name v => VM.setGlobal name v

end Request

namespace Machine

/-- The machines the host reaches from a fresh one whose calls may use `d` frames, serving
requests one after another; a request that fails leaves the machine it failed in. -/
inductive Reachable (d : Nat) : Machine → Prop
  | boot : Reachable d (boot d)
  | serve (r : Request) {m : Machine} : Reachable d m → Reachable d (VM.final (r.serve.run m))

@[simp] theorem boot_frame (d : Nat) : (boot d).frame = {} := by
  unfold boot; split; rfl

@[simp] theorem boot_callers (d : Nat) : (boot d).callers = #[] := by
  unfold boot; split; rfl

@[simp] theorem boot_cells (d : Nat) : (boot d).cells = #[] := by
  unfold boot; split; rfl

@[simp] theorem boot_maxDepth (d : Nat) : (boot d).maxDepth = d := by
  unfold boot; split; rfl

/-- A fresh machine is sound: it runs the host's frame alone, with no cells. -/
theorem boot_sound (d : Nat) : (boot d).Sound d where
  maxDepth := boot_maxDepth d
  depth := by simp [depth]
  cells id fr slot h := by simp at h
  running := by rw [boot_frame]; exact Nat.le_refl 0
  callers f hf := by simp at hf

end Machine

namespace VM

open Machine

theorem Guards.discard {x : VM α} (hx : Guards x) : Guards (discard x) := hx.map

theorem setTopAt_guards (idx : Int) : Guards (setTopAt idx) := by
  unfold setTopAt
  refine frame_guards.bind fun f => ?_
  dsimp only
  split
  · exact (Guards.throw _).bind fun _ => modifyFrame_guards (Frame.Steady.setTop _)
  · exact modifyFrame_guards (Frame.Steady.setTop _)

theorem load_guards (p : Proto) : Guards (load p) := by
  unfold load
  refine Guards.get.bind fun _ => ?_
  refine (Guards.forIn fun _ _ => ?_).bind fun _ =>
    (newClosure_guards _).bind fun _ => push_guards _
  exact (newCell_guards _).bind fun _ => Guards.pure _

/-- An execution leaves the frames its chunk entered, whether it succeeds or fails: loading the
chunk keeps the frames in use, so the depth read before it is the one the failure unwinds to. -/
theorem execute_guards (p : Proto) : Guards (execute p) := by
  intro d m hs _
  obtain ⟨id, c, m₁, hload, hcallers, -, -⟩ := load_run m p
  have hs₁ : m₁.Sound d := by
    have h := (load_guards p) d m hs trivial
    rw [hload] at h
    exact h.1
  simp only [execute, top, frame, EStateM.run_bind, EStateM.run_get, EStateM.run_pure, hload]
  rw [← hcallers]
  exact tryCatch_unwind_guards
    (((call_guards budget).1 0 (-1)).bind fun _ => top_guards.bind fun _ => popN_guards _)
    (((call_balanced budget).1 0 (-1)).bind fun _ => top_balanced.bind fun _ => popN_balanced _)
    (fun _ => (modifyFrame_guards (Frame.Steady.setTop _)).bind fun _ => Guards.throw _) d hs₁

end VM

namespace Request

open VM

/-- Every request leaves a sound machine sound, whether it succeeds or fails. -/
theorem serve_guards : ∀ r : Request, Guards r.serve
  | push v => push_guards v
  | pop => pop_guards.discard
  | get idx => (getAt_guards idx).discard
  | setTop idx => setTopAt_guards idx
  | insert idx => insert_guards idx
  | load p => load_guards p
  | execute p => (execute_guards p).discard
  | call nArgs nResults => (call_guards budget).1 nArgs nResults
  | pcall nArgs nResults msgh =>
    (protectedCall_guards (call_guards budget).1 (call_balanced budget).1 nArgs nResults
      msgh).discard
  | getTable idx k =>
    ((getAt_guards idx).bind fun t => index_guards (call_guards budget).1 t k).discard
  | getGlobal _ => (Guards.get.bind fun _ => Guards.pure _).discard
  | setGlobal _ _ => Guards.get.bind fun _ => rawSet_guards _ _ _

end Request

namespace Machine

open VM

variable {d : Nat} {m : Machine}

/-- Every machine the host reaches is sound. -/
theorem Reachable.sound (h : Reachable d m) : m.Sound d := by
  induction h with
  | boot => exact boot_sound d
  | serve r _ ih => exact (r.serve_guards d _ ih trivial).1

/-- On a machine the host reaches from one whose calls may use `d` frames:
* between one and `max 1 d` frames are in use;
* executing a chunk, whether it succeeds or fails, leaves as many frames in use and the host's
  top where it was;
* a protected call from a frame that runs no Lua function, with a function and its `nArgs`
  arguments on top and a message handler that is not positive, does what `Protected` says;
* a protected call with a positive message handler fails, the machine unchanged;
* entering a library function's frame from a sound machine leaves it sound, and on every sound
  machine a protected call from a frame that runs no Lua function does what `Protected` says:
  so also the call `pcall` makes from its own frame in the middle of a run. -/
theorem host_frame_discipline (hm : Reachable d m) :
    (1 ≤ m.depth ∧ m.depth ≤ max 1 d) ∧
    (∀ p, (final ((execute p).run m)).depth = m.depth ∧
      (final ((execute p).run m)).frame.top = m.frame.top) ∧
    (∀ nArgs nResults msgh, m.frame.runsLua = false → nArgs < m.frame.top → msgh ≤ 0 →
      Protected VM.call m nArgs nResults msgh ((VM.pcall nArgs nResults msgh).run m)) ∧
    (∀ nArgs nResults msgh, 0 < msgh →
      (VM.pcall nArgs nResults msgh).run m = .error (.unsupported "message handler") m) ∧
    (∀ (m' : Machine) (b : Builtin) id args, m'.Sound d → m'.depth < m'.maxDepth →
      ({ m' with frame := Frame.native (.builtin b id) args,
                 callers := m'.callers.push m'.frame } : Machine).Sound d) ∧
    (∀ (m' : Machine) fuel nArgs nResults msgh, m'.Sound d → m'.frame.runsLua = false →
      nArgs < m'.frame.top → msgh ≤ 0 →
      Protected (callValue (fuel + 1)) m' nArgs nResults msgh
        ((protectedCall (callValue (fuel + 1)) nArgs nResults msgh).run m')) := by
  have hs := hm.sound
  refine ⟨⟨Nat.le_add_left 1 _, hs.depth⟩, fun p => execute_restores hs.running p,
    fun nArgs nResults msgh hl hk hmsgh => ?_, fun nArgs nResults msgh hpos => ?_,
    fun m' b id args hs' hd => hs'.push (Nat.not_le.mpr hd) (Nat.le_refl args.size),
    fun m' fuel nArgs nResults msgh hs' hl hk hmsgh =>
      protectedCall_from_host fuel hs' hl hk hmsgh⟩
  · have h : Protected (callValue (budget - 1 + 1)) m nArgs nResults msgh _ :=
      protectedCall_from_host (budget - 1) hs hl hk hmsgh
    rw [← budget_succ] at h
    exact h
  · simp only [VM.pcall, protectedCall, gt_iff_lt, hpos, if_true, EStateM.run_bind, run_throw]

/-- With a string and then a number pushed on a fresh machine, a protected call of the number
keeps the frames in use and the string below it. -/
theorem pcall_of_number_keeps_frames :
    Reachable 200 (VM.final ((Request.push (.int 1)).serve.run
      (VM.final ((Request.push (.str "below")).serve.run (boot 200))))) ∧
    Protected VM.call (VM.final ((Request.push (.int 1)).serve.run
        (VM.final ((Request.push (.str "below")).serve.run (boot 200))))) 0 1 0
      ((VM.pcall 0 1 0).run (VM.final ((Request.push (.int 1)).serve.run
        (VM.final ((Request.push (.str "below")).serve.run (boot 200)))))) := by
  have hm : Reachable 200 _ := .serve (.push (.int 1)) (.serve (.push (.str "below")) .boot)
  refine ⟨hm, (host_frame_discipline hm).2.2.1 0 1 0 ?_ ?_ (Int.le_refl 0)⟩
  · simp [Request.serve, VM.push, modifyFrame, Frame.push, Frame.runsLua]
  · simp [Request.serve, VM.push, modifyFrame, Frame.push]

end Machine

end LuaBytecode
