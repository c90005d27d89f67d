import TensorKernels.Proofs.Assembly.Exec
import TensorKernels.Proofs.Assembly.Link

/-!
Counted loops around an arbitrary body. The body is any list of steps, with labels, branches and
loops of its own. All that is asked of it is that the linked words lead from its first one to the
word after its last one, from every state, and that they leave the counter as it was. The loop then
executes the body once for each trip, between the load of the counter and its last test.
-/

namespace TensorKernels.Assembly

/-! Single words of linked code. -/

section Linked

variable {before after : List Step} {code : MachineCode}

theorem site_ne_position {w : Word} {br : Branch}
    (h : br ∈ recorded 0 (before ++ .emit w :: after)) : br.site ≠ position before := by
  rw [recorded_append, Nat.zero_add, List.mem_append] at h
  rcases h with hbefore | hafter
  · exact (mem_recorded_iff.1 hbefore).lt_position.ne
  · have hle : position before + 1 ≤ br.site := le_site_of_mem_recorded hafter
    omega

theorem getElem?_link_emit {w : Word}
    (h : (ofSteps (before ++ .emit w :: after)).link = .ok code) :
    code.words[position before]? = some w := by
  obtain ⟨words, hwords, rfl⟩ := link_eq_ok_iff.1 h
  rw [branches_ofSteps] at hwords
  rw [getElem?_foldlM_patch_of_ne hwords fun br => site_ne_position, ← Array.getElem?_toList,
    words_ofSteps, emitted, List.flatMap_append, ← emitted, position,
    List.getElem?_append_right le_rfl, Nat.sub_self]
  rfl

theorem holds_link {is : List Instr}
    (h : (ofSteps (before ++ (is.map (fun i => .emit i.encode) ++ after))).link = .ok code) :
    Holds code.words (position before) is := by
  induction is generalizing before with
  | nil => trivial
  | cons i is ih =>
    have hrest : Holds code.words (position (before ++ [.emit i.encode])) is :=
      ih (by simpa using h)
    rw [position_append] at hrest
    exact ⟨getElem?_link_emit h, hrest⟩

theorem getElem?_link_branchTo {form : BranchForm} {label p : ℕ}
    (h : (ofSteps (before ++ .branchTo form label :: after)).link = .ok code)
    (hp : PlacedAt (before ++ .branchTo form label :: after) label p) :
    form.Reaches ((p : Int) - position before) ∧
      code.words[position before]? = some (form.instr ((p : Int) - position before)).encode := by
  have hrecords : Records (before ++ .branchTo form label :: after)
      ⟨position before, label, form⟩ := ⟨before, after, rfl, rfl⟩
  have hsize : position before < (ofSteps (before ++ .branchTo form label :: after)).words.size := by
    rw [← here, here_ofSteps]
    exact hrecords.lt_position
  obtain ⟨words, hwords, rfl⟩ := link_eq_ok_iff.1 h
  rw [branches_ofSteps] at hwords
  obtain ⟨d, hd, hword⟩ := getElem?_foldlM_patch hwords (pairwise_recorded 0 _)
    (mem_recorded_iff.2 hrecords) hsize
  obtain ⟨p', hp', rfl, hreach⟩ := displacement_eq_ok_iff.1 hd
  rw [target?_ofSteps.2 hp, Option.some_inj] at hp'
  subst hp'
  exact ⟨hreach, hword⟩

end Linked

/-! A loop in steps. -/

def write (a : Assembly) (steps : List Step) : Assembly := steps.foldl Step.apply a

theorem write_append (a : Assembly) (steps steps' : List Step) :
    a.write (steps ++ steps') = (a.write steps).write steps' := List.foldl_append

theorem write_ofSteps (before steps : List Step) :
    (ofSteps before).write steps = ofSteps (before ++ steps) := List.foldl_append.symm

theorem write_map_emit (a : Assembly) (is : List Instr) :
    a.write (is.map fun i => .emit i.encode) = a.emitAll is := List.foldl_map

def loopEntry (a : Assembly) (counter : GeneralReg) (trips : ℕ) : Assembly :=
  (a.emitAll (Sequence.loadConstant counter trips)).newLabel.bindLabel a.nextLabel

def loopHead (counter : GeneralReg) (trips label : ℕ) : List Step :=
  (Sequence.loadConstant counter trips).map (fun i => .emit i.encode) ++
    [.newLabel, .bindLabel label]

def loopTail (counter : GeneralReg) (label : ℕ) : List Step :=
  [.emit (Instr.subImm counter counter 1 false).encode, .branchTo (.cbnz counter) label]

def loopSteps (counter : GeneralReg) (trips : ℕ) (body : Assembly → List Step) (a : Assembly) :
    List Step :=
  match trips with
  | 0 => []
  | 1 => body a
  | trips =>
    loopHead counter trips a.nextLabel ++
      (body (a.loopEntry counter trips) ++ loopTail counter a.nextLabel)

theorem write_loopHead (a : Assembly) (counter : GeneralReg) (trips : ℕ) :
    a.write (loopHead counter trips a.nextLabel) = a.loopEntry counter trips := by
  rw [loopHead, write_append, write_map_emit]
  rfl

theorem loop_eq_write (a : Assembly) (counter : GeneralReg) {trips : ℕ} (h : 1 < trips)
    (body : Assembly → Assembly) :
    a.loop counter trips body =
      (body (a.loopEntry counter trips)).write (loopTail counter a.nextLabel) := by
  have hlabel : (a.emitAll (Sequence.loadConstant counter trips)).nextLabel = a.nextLabel := by
    rw [nextLabel, labels_emitAll, nextLabel]
  obtain ⟨n, rfl⟩ := Nat.exists_eq_add_of_lt h
  rw [loop, hlabel]
  · rfl
  all_goals omega

theorem write_loopSteps (a : Assembly) (counter : GeneralReg) (trips : ℕ)
    (body : Assembly → List Step) :
    a.write (loopSteps counter trips body a) = a.loop counter trips fun a => a.write (body a) := by
  obtain _ | _ | n := trips
  · rfl
  · rfl
  · rw [loop_eq_write a counter (by omega), loopSteps, write_append, write_append, write_loopHead]
    all_goals omega

/-- The state at the start of each trip, the first one being number zero, and after the last one. -/
def tripState {F : Type} (counter : GeneralReg) (trips : ℕ) (run : State F → State F)
    (s : State F) : ℕ → State F
  | 0 => s.set counter.id (trips : BitVec 64)
  | i + 1 => (run (tripState counter trips run s i)).set counter.id
      ((trips - (i + 1) : ℕ) : BitVec 64)

section Loop

variable {F : Type} [Lane F] {counter : GeneralReg} {run : State F → State F}

omit [Lane F] in
theorem general_tripState (trips : ℕ) (s : State F) (i : ℕ) :
    (tripState counter trips run s i).general counter.id = ((trips - i : ℕ) : BitVec 64) := by
  cases i with
  | zero => exact State.general_set_same ..
  | succ i => exact State.general_set_same ..

theorem iterate_trip (hX : counter.IsX)
    (hcounter : ∀ s, (run s).general counter.id = s.general counter.id) {trips i : ℕ}
    (hi : i ≤ trips) (s : State F) :
    (Code.trip counter run)^[i] (s.set counter.id (trips : BitVec 64)) =
      tripState counter trips run s i := by
  induction i with
  | zero => rfl
  | succ i ih =>
    have hleft : trips - i = trips - (i + 1) + 1 := by omega
    rw [Function.iterate_succ_apply', ih (Nat.le_of_succ_le hi), Code.trip, Instr.effect_subImm _ hX,
      hcounter, general_tripState, hleft, if_neg (by decide), BitVec.shiftLeft_zero, Nat.cast_add,
      Nat.cast_one, add_sub_cancel_right, tripState]

end Loop

section Position

variable {before after steps : List Step} {counter : GeneralReg} {trips : ℕ} {code : MachineCode}

theorem position_loopHead (counter : GeneralReg) (trips label : ℕ) :
    position (loopHead counter trips label) = (Sequence.loadConstant counter trips).length := by
  rw [position, emitted, loopHead, List.flatMap_append, List.flatMap_map, List.length_append,
    List.length_flatMap]
  simp [Step.words]

theorem placedAt_loopHead (counter : GeneralReg) (trips : ℕ)
    (hlabel : .bindLabel (created before) ∉ steps ++ after) :
    PlacedAt (before ++ loopHead counter trips (created before) ++ steps ++
        loopTail counter (created before) ++ after) (created before)
      (position before + (Sequence.loadConstant counter trips).length) := by
  rw [List.mem_append, not_or] at hlabel
  refine ⟨before ++ ((Sequence.loadConstant counter trips).map (fun i => .emit i.encode) ++
    [.newLabel]), steps ++ (loopTail counter (created before) ++ after), ?_, ?_, ?_, ?_⟩
  · simp [loopHead]
  · rw [created, created, List.count_append, List.count_append, List.count_singleton_self]
    omega
  · simp [loopTail, hlabel]
  · rw [position_append, position_append, ← position_loopHead counter trips 0, loopHead,
      position_append]
    rfl

theorem holds_loop (hlabel : .bindLabel (created before) ∉ steps ++ after)
    (h : (ofSteps (before ++ loopHead counter trips (created before) ++ steps ++
      loopTail counter (created before) ++ after)).link = .ok code) :
    position steps + 1 ≤ 2 ^ 18 ∧
      Holds code.words (position before) (Sequence.loadConstant counter trips) ∧
      Holds code.words (position before + (Sequence.loadConstant counter trips).length +
        position steps) (Code.back counter (position steps)) := by
  have hload := h
  have hplaced := placedAt_loopHead counter trips hlabel
  have hposition : position (before ++ loopHead counter trips (created before) ++ steps) =
      position before + (Sequence.loadConstant counter trips).length + position steps := by
    rw [position_append, position_append, position_loopHead]
  rw [loopHead, List.append_assoc, List.append_assoc, List.append_assoc, List.append_assoc] at hload
  rw [loopTail, List.append_assoc, List.cons_append] at h hplaced
  have hsub := getElem?_link_emit h
  rw [List.append_cons, List.singleton_append] at h hplaced
  obtain ⟨hreach, hcbnz⟩ := getElem?_link_branchTo h hplaced
  have hsite : position (before ++ loopHead counter trips (created before) ++ steps ++
      [.emit (Instr.subImm counter counter 1 false).encode]) =
        position before + (Sequence.loadConstant counter trips).length + position steps + 1 := by
    rw [position_append, hposition]
    rfl
  have hback : ((position before + (Sequence.loadConstant counter trips).length : ℕ) : Int) -
      ((position before + (Sequence.loadConstant counter trips).length + position steps + 1 : ℕ) :
        Int) = -((position steps + 1 : ℕ) : Int) := by omega
  rw [hposition] at hsub
  rw [hsite, hback] at hreach hcbnz
  have hfar : -(2 ^ 18 : Int) ≤ -((position steps + 1 : ℕ) : Int) := hreach.1
  exact ⟨by omega, holds_link hload, hsub, hcbnz, trivial⟩

end Position

section Run

variable {F : Type} [Lane F] {before after steps : List Step} {counter : GeneralReg} {trips : ℕ}
  {code : MachineCode} {passed : State F → List ℕ} {run : State F → State F}

theorem runsThrough_loop {start stop : ℕ}
    (hstart : position before + (Sequence.loadConstant counter trips).length = start)
    (hstop : start + position steps = stop) (hX : counter.IsX) (hmany : 1 < trips)
    (htrips : trips < 2 ^ 64) (hlabel : .bindLabel (created before) ∉ steps ++ after)
    (hlink : (ofSteps (before ++ loopHead counter trips (created before) ++ steps ++
      loopTail counter (created before) ++ after)).link = .ok code)
    (hbody : ∀ s, RunsThrough code.words (passed s) ⟨start, s⟩ ⟨stop, run s⟩)
    (hcounter : ∀ s, (run s).general counter.id = s.general counter.id) (s : State F) :
    RunsThrough code.words
      (List.range' (position before) (Sequence.loadConstant counter trips).length ++
        (List.range trips).flatMap fun i =>
          passed (tripState counter trips run s i) ++ [stop, stop + 1])
      ⟨position before, s⟩ ⟨stop + 2, tripState counter trips run s trips⟩ := by
  obtain ⟨hshort, hload, hback⟩ := holds_loop hlabel hlink
  have hloaded := runsThrough_effects hload (Sequence.straight_loadConstant counter trips).plain s
  rw [Sequence.effects_loadConstant hX htrips, hstart] at hloaded
  have hstates (i) (hi : i ∈ List.range trips) :
      passed ((Code.trip counter run)^[i] (s.set counter.id (trips : BitVec 64))) ++
        [stop, stop + 1] = passed (tripState counter trips run s i) ++ [stop, stop + 1] := by
    rw [iterate_trip hX hcounter (List.mem_range.1 hi).le]
  subst hstart hstop
  obtain ⟨k, rfl⟩ := Nat.exists_eq_add_of_lt hmany
  have hlooped := Code.runsThrough_trips hX hshort hcounter hbody hback htrips
    (State.general_set_same s counter.id _)
  rw [iterate_trip hX hcounter le_rfl, List.flatMap_congr hstates] at hlooped
  exact hloaded.append hlooped

end Run

/-- A loop of several trips loads the counter and then executes the body once for each trip, with the
decrement and the branch after it. Beyond what the body does, only the counter changes: it holds the
number of trips left. The label of the loop is its own, placed by nothing else. No trips are no words,
and a single trip is the body alone. As a loop is written in steps, it can be in a body itself. -/
theorem loop_executes_body {counter : GeneralReg} (hX : counter.IsX) {trips : ℕ}
    (htrips : trips < 2 ^ 64) (before after : List Step) (body : Assembly → List Step) :
    let a := ofSteps before
    let looped := a.loop counter trips fun a => a.write (body a)
    let entry := a.loopEntry counter trips
    let exit := entry.write (body entry)
    looped = a.write (loopSteps counter trips body a) ∧
    (trips = 0 → looped = a) ∧ (trips = 1 → looped = a.write (body a)) ∧
    (1 < trips → .bindLabel a.nextLabel ∉ body entry ++ after →
      ∀ code, (looped.write after).link = .ok code →
      ∀ (F : Type) [Lane F] (passed : State F → List ℕ) (run : State F → State F),
        (∀ s, RunsThrough code.words (passed s) ⟨entry.here, s⟩ ⟨exit.here, run s⟩) →
        (∀ s, (run s).general counter.id = s.general counter.id) →
        ∀ s, RunsThrough code.words
          (List.range' a.here (Sequence.loadConstant counter trips).length ++
            (List.range trips).flatMap fun i =>
              passed (tripState counter trips run s i) ++ [exit.here, exit.here + 1])
          ⟨a.here, s⟩ ⟨looped.here, tripState counter trips run s trips⟩) := by
  intro a looped entry exit
  refine ⟨(write_loopSteps a counter trips body).symm, fun h => ?_, fun h => ?_,
    fun hmany hlabel code hlink F _ passed run hbody hcounter s => ?_⟩
  · subst h
    rfl
  · subst h
    rfl
  have hnext : a.nextLabel = created before := size_labels_ofSteps before
  have hentry : entry = ofSteps (before ++ loopHead counter trips (created before)) := by
    rw [← write_ofSteps, ← hnext, write_loopHead]
  have hexit : exit = ofSteps (before ++ loopHead counter trips (created before) ++ body entry) := by
    rw [← write_ofSteps, ← hentry]
  have hlooped : looped = ofSteps (before ++ loopHead counter trips (created before) ++ body entry ++
      loopTail counter (created before)) := by
    rw [← write_ofSteps, ← hexit, ← hnext]
    exact loop_eq_write a counter hmany _
  have hstart : position before + (Sequence.loadConstant counter trips).length = entry.here := by
    rw [hentry, here_ofSteps, position_append, position_loopHead]
  have hstop : entry.here + position (body entry) = exit.here := by
    rw [hexit, hentry, here_ofSteps, here_ofSteps, position_append _ (body _)]
  have hend : looped.here = exit.here + 2 := by
    rw [hlooped, hexit, here_ofSteps, here_ofSteps, position_append _ (loopTail ..)]
    rfl
  rw [hlooped, write_ofSteps] at hlink
  rw [hnext] at hlabel
  rw [hend, here_ofSteps before]
  exact runsThrough_loop hstart hstop hX hmany htrips hlabel hlink hbody hcounter s

def increment (r : GeneralReg) : Instr := .addImm r r 1 false

def incremented {F : Type} (r : Fin 32) (s : State F) : State F := s.set r (s.general r + 1)

theorem step_increment {F : Type} [Lane F] {r : GeneralReg} (hr : r.IsX) {words : Array Word}
    {p : ℕ} (h : words[p]? = some (increment r).encode) (s : State F) :
    step words ⟨p, s⟩ = some ⟨p + 1, incremented r.id s⟩ := by
  rw [step_of_plain h ⟨(by decide : 1 < 2 ^ 12), rfl, rfl⟩, increment, Instr.effect_addImm s hr,
    if_neg (by decide), BitVec.shiftLeft_zero, Nat.cast_one, incremented]

def count (n : ℕ) : Step := .emit (increment (GeneralReg.x n)).encode

def nestedBody (a : Assembly) : List Step :=
  count 1 :: loopSteps (GeneralReg.x 12) 2 (fun _ => [count 0]) (a.write [count 1])

def nestedWords : Array Word :=
  ([.movz (GeneralReg.x 11) 3 0, increment (GeneralReg.x 1), .movz (GeneralReg.x 12) 2 0,
    increment (GeneralReg.x 0)] ++ Code.back (GeneralReg.x 12) 1 ++
    Code.back (GeneralReg.x 11) 5 |>.map Instr.encode).toArray

theorem nestedLoops_execute_body :
    (empty.loop (GeneralReg.x 11) 3 fun a => a.write (nestedBody a)).link =
      .ok ⟨nestedWords, 2, 2⟩ ∧
    ∀ (F : Type) [Lane F] (s : State F), ∃ t,
      RunsThrough nestedWords (0 :: (List.replicate 3 [1, 2, 3, 4, 5, 3, 4, 5, 6, 7]).flatten)
        ⟨0, s⟩ ⟨8, t⟩ ∧
      t.general 0 = s.general 0 + 6 ∧ t.general 1 = s.general 1 + 3 ∧ t.general 11 = 0 := by
  refine ⟨rfl, fun F _ s => ?_⟩
  have hX12 : (GeneralReg.x 12).IsX := ⟨rfl, by decide⟩
  have hX11 : (GeneralReg.x 11).IsX := ⟨rfl, by decide⟩
  have hcount (s : State F) : RunsThrough nestedWords [3] ⟨3, s⟩ ⟨4, incremented 0 s⟩ :=
    .single (step_increment (r := GeneralReg.x 0) ⟨rfl, by decide⟩ rfl s)
  have hinner (s : State F) := (loop_executes_body hX12 (by decide : 2 < 2 ^ 64)
    (loopHead (GeneralReg.x 11) 3 0 ++ [count 1]) (loopTail (GeneralReg.x 11) 0)
    fun _ => [count 0]).2.2.2 (by decide) (by decide) ⟨nestedWords, 2, 2⟩ rfl F (fun _ => [3])
    (incremented 0) hcount (fun _ => rfl) s
  have hbody (s : State F) : RunsThrough nestedWords [1, 2, 3, 4, 5, 3, 4, 5] ⟨1, s⟩
      ⟨6, tripState (GeneralReg.x 12) 2 (incremented 0) (incremented 1 s) 2⟩ :=
    .head (step_increment (r := GeneralReg.x 1) ⟨rfl, by decide⟩ rfl s) (hinner _)
  have houter := (loop_executes_body hX11 (by decide : 3 < 2 ^ 64) [] [] nestedBody).2.2.2 (by decide)
    (by decide) ⟨nestedWords, 2, 2⟩ rfl F (fun _ => [1, 2, 3, 4, 5, 3, 4, 5])
    (fun s => tripState (GeneralReg.x 12) 2 (incremented 0) (incremented 1 s) 2) hbody
    (fun _ => rfl) s
  have hsix : s.general 0 + 1 + 1 + 1 + 1 + 1 + 1 = s.general 0 + 6 := by grind
  have hthree : s.general 1 + 1 + 1 + 1 = s.general 1 + 3 := by grind
  exact ⟨_, houter, hsix, hthree, rfl⟩

end TensorKernels.Assembly
