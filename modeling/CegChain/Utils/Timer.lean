import CegChain.Lib.Runs
import Mathlib.Data.List.Sort
import Mathlib.Data.List.TakeWhile

/-!
# Timers

`utils/timer.cpp`.  `OnTimer` moves the timers that expired to `exeute_list_` and then runs
them one by one; what runs may add and delete timers.  `DelTimer` looks in `time_ele_` only.

A run writes a log, and `Sound` is the invariant: every timer that was added is in
`time_ele_`, was deleted, was executed, or waits in `exeute_list_`.  `timers_sound_iff` says
what this gives for each call of `DelTimer`: a timer that waits is not found, and runs
afterwards.
-/

namespace CegChain.Timers

open scoped List

/-- What a callback does: calls of `AddTimer` and `DelTimer`, which may depend on the answers
to those before.  `now` is the time that `AddTimer` reads.  A callback runs once at most, so
that what it will do can be fixed when its timer is added. -/
inductive Callback where
  | done
  | addTimer (now microTime data : ℤ) (func : ℤ → Callback) (next : ℤ → Callback)
  | delTimer (index : ℤ) (next : Bool → Callback)

/-- `TimerElement`. -/
structure TimerElement where
  id : ℤ
  data : ℤ
  expireTime : ℤ
  func : ℤ → Callback

/-- `Timer`. -/
structure Timer where
  /-- `time_ele_`, a multimap. -/
  timeEle : List (ℤ × TimerElement) := []
  exeuteList : List TimerElement := []
  globalElementId : ℤ := 1
  checkInterval : ℤ := 100 * 1000
  lastCheckTime : ℤ := 0

namespace Timer

/-- `Timer::AddTimer`.  An entry goes behind those with the same key. -/
def addTimer (now microTime data : ℤ) (func : ℤ → Callback) (timer : Timer) : ℤ × Timer :=
  let expireTime := now + microTime
  let element : TimerElement := ⟨timer.globalElementId, data, expireTime, func⟩
  (element.id, { timer with
    timeEle := timer.timeEle.orderedInsert (fun a b => a.1 < b.1) (expireTime, element)
    globalElementId := timer.globalElementId + 1 })

/-- `Timer::DelTimer`. -/
def delTimer (index : ℤ) (timer : Timer) : Bool × Timer :=
  if timer.timeEle.any fun entry => entry.2.id = index then
    (true, { timer with timeEle := timer.timeEle.eraseP fun entry => entry.2.id = index })
  else (false, timer)

/-- The elements that `CheckExpire` moves. -/
def expiredAt (curTime : ℤ) (timer : Timer) : List TimerElement :=
  (timer.timeEle.takeWhile fun entry => entry.1 ≤ curTime).map Prod.snd

/-- `Timer::CheckExpire`. -/
def checkExpire (curTime : ℤ) (timer : Timer) : Timer :=
  { timer with
    timeEle := timer.timeEle.dropWhile fun entry => entry.1 ≤ curTime
    exeuteList := timer.exeuteList ++ timer.expiredAt curTime }

/-- The timers in `time_ele_`. -/
def ids (timer : Timer) : List ℤ :=
  timer.timeEle.map fun entry => entry.2.id

end Timer

/-! ## Runs -/

/-- What is written to the log. -/
inductive TimerEvent where
  | added (id expireTime : ℤ)
  /-- `CheckExpire` moves the timer. -/
  | expired (id : ℤ)
  /-- `TimerElement::Excute` begins. -/
  | executed (id currentTime : ℤ)
  | delTimer (index : ℤ) (found : Bool)
  deriving DecidableEq

/-- A timer with its log. -/
structure Machine where
  timer : Timer := {}
  log : List TimerEvent := []

namespace Machine

/-- `AddTimer`. -/
def addTimer (now microTime data : ℤ) (func : ℤ → Callback) (m : Machine) : ℤ × Machine :=
  let (id, timer) := m.timer.addTimer now microTime data func
  (id, ⟨timer, m.log ++ [.added id (now + microTime)]⟩)

/-- `DelTimer`. -/
def delTimer (index : ℤ) (m : Machine) : Bool × Machine :=
  let (found, timer) := m.timer.delTimer index
  (found, ⟨timer, m.log ++ [.delTimer index found]⟩)

end Machine

/-- A callback runs. -/
def Callback.run : Callback → Machine → Machine
  | .done, m => m
  | .addTimer now microTime data func next, m =>
      let (id, m) := m.addTimer now microTime data func
      (next id).run m
  | .delTimer index next, m =>
      let (found, m) := m.delTimer index
      (next found).run m

namespace Machine

/-- `TimerElement::Excute`. -/
def excute (currentTime : ℤ) (m : Machine) (element : TimerElement) : Machine :=
  (element.func element.data).run { m with log := m.log ++ [.executed element.id currentTime] }

/-- `CheckExpire`. -/
def checkExpire (curTime : ℤ) (m : Machine) : Machine where
  timer := m.timer.checkExpire curTime
  log := m.log ++ (m.timer.expiredAt curTime).map fun element => .expired element.id

/-- `Timer::OnTimer`. -/
def onTimer (currentTime : ℤ) (m : Machine) : Machine :=
  if currentTime > m.timer.lastCheckTime + m.timer.checkInterval then
    let m := m.checkExpire currentTime
    let m := m.timer.exeuteList.foldl (excute currentTime) m
    { m with timer := { m.timer with exeuteList := [], lastCheckTime := currentTime } }
  else m

end Machine

/-- A call from outside. -/
inductive TimerCall where
  | addTimer (now microTime data : ℤ) (func : ℤ → Callback)
  | delTimer (index : ℤ)
  | onTimer (currentTime : ℤ)

/-- The machine after a call. -/
def TimerCall.run (m : Machine) : TimerCall → Machine
  | .addTimer now microTime data func => (m.addTimer now microTime data func).2
  | .delTimer index => (m.delTimer index).2
  | .onTimer currentTime => m.onTimer currentTime

/-- The machine after these calls. -/
def run (calls : List TimerCall) : Machine :=
  calls.foldl TimerCall.run {}

/-! ## The log -/

/-- The timers that were added. -/
def addedIds (log : List TimerEvent) : List ℤ :=
  log.filterMap fun
    | .added id _ => some id
    | _ => none

/-- The timers that were moved to `exeute_list_`. -/
def expiredIds (log : List TimerEvent) : List ℤ :=
  log.filterMap fun
    | .expired id => some id
    | _ => none

/-- The timers that were executed. -/
def executedIds (log : List TimerEvent) : List ℤ :=
  log.filterMap fun
    | .executed id _ => some id
    | _ => none

/-- The timers that `DelTimer` found. -/
def deletedIds (log : List TimerEvent) : List ℤ :=
  log.filterMap fun
    | .delTimer index true => some index
    | _ => none

/-- What an event says of those before it. -/
def Fair (before : List TimerEvent) : TimerEvent → Prop
  | .executed id currentTime => ∃ expireTime ≤ currentTime, .added id expireTime ∈ before
  | .delTimer index found =>
      found = true ↔
        index ∈ addedIds before ∧ index ∉ deletedIds before ∧ index ∉ expiredIds before
  | _ => True

/-- Every timer is in one place: in `time_ele_`, deleted, executed, or among those `behind`
the iterator of `OnTimer`. -/
structure Sound (m : Machine) (behind : List TimerElement) : Prop where
  fresh : ∀ id ∈ addedIds m.log, id < m.timer.globalElementId
  nodup : (addedIds m.log).Nodup
  placed : addedIds m.log ~ m.timer.ids ++ (deletedIds m.log ++ expiredIds m.log)
  started : expiredIds m.log ~ executedIds m.log ++ behind.map TimerElement.id
  known : ∀ entry ∈ m.timer.timeEle, .added entry.2.id entry.1 ∈ m.log
  fair : Runs.Each Fair m.log

variable {m : Machine} {behind : List TimerElement} {element : TimerElement}

@[simp] theorem addedIds_append (log log' : List TimerEvent) :
    addedIds (log ++ log') = addedIds log ++ addedIds log' :=
  List.filterMap_append

@[simp] theorem expiredIds_append (log log' : List TimerEvent) :
    expiredIds (log ++ log') = expiredIds log ++ expiredIds log' :=
  List.filterMap_append

@[simp] theorem executedIds_append (log log' : List TimerEvent) :
    executedIds (log ++ log') = executedIds log ++ executedIds log' :=
  List.filterMap_append

@[simp] theorem deletedIds_append (log log' : List TimerEvent) :
    deletedIds (log ++ log') = deletedIds log ++ deletedIds log' :=
  List.filterMap_append

theorem mem_addedIds {log : List TimerEvent} {id : ℤ} :
    id ∈ addedIds log ↔ ∃ expireTime, .added id expireTime ∈ log := by
  rw [addedIds, List.mem_filterMap]
  constructor
  · rintro ⟨event, hmem, heq⟩
    cases event <;> cases heq
    exact ⟨_, hmem⟩
  · rintro ⟨expireTime, hmem⟩
    exact ⟨_, hmem, rfl⟩

theorem sound_start : Sound {} [] :=
  ⟨nofun, List.nodup_nil, List.Perm.nil, List.Perm.nil, nofun, Runs.each_nil⟩

/-- What is in `time_ele_`, by the log. -/
theorem Sound.mem_ids (hsound : Sound m behind) (id : ℤ) :
    id ∈ m.timer.ids ↔ id ∈ addedIds m.log ∧ id ∉ deletedIds m.log ∧ id ∉ expiredIds m.log := by
  have hnodup := hsound.placed.nodup_iff.mp hsound.nodup
  rw [List.nodup_append'] at hnodup
  rw [hsound.placed.mem_iff, List.mem_append, List.mem_append]
  constructor
  · intro hmem
    have hother : id ∉ deletedIds m.log ++ expiredIds m.log := hnodup.2.2 hmem
    rw [List.mem_append, not_or] at hother
    exact ⟨.inl hmem, hother⟩
  · rintro ⟨hmem | hmem | hmem, hdeleted, hexpired⟩
    · exact hmem
    · exact absurd hmem hdeleted
    · exact absurd hmem hexpired

/-- What was moved was not deleted. -/
theorem Sound.disjoint (hsound : Sound m behind) :
    (deletedIds m.log).Disjoint (expiredIds m.log) := by
  have hnodup := hsound.placed.nodup_iff.mp hsound.nodup
  rw [List.nodup_append', List.nodup_append'] at hnodup
  exact hnodup.2.1.2.2

/-- When nothing waits, all that was moved was executed. -/
theorem Sound.executed_perm (hsound : Sound m []) : expiredIds m.log ~ executedIds m.log := by
  have hstarted := hsound.started
  rwa [List.map_nil, List.append_nil] at hstarted

theorem Sound.nodup_executed (hsound : Sound m []) : (executedIds m.log).Nodup := by
  have hnodup := hsound.placed.nodup_iff.mp hsound.nodup
  rw [List.nodup_append', List.nodup_append'] at hnodup
  exact hsound.executed_perm.nodup_iff.mp hnodup.2.1.2.1

/-! ## AddTimer and DelTimer -/

theorem Sound.addTimer (hsound : Sound m behind) (now microTime data : ℤ)
    (func : ℤ → Callback) : Sound (m.addTimer now microTime data func).2 behind := by
  set id := m.timer.globalElementId with hid
  have hnew : id ∉ addedIds m.log := fun hmem => absurd (hsound.fresh _ hmem) (lt_irrefl _)
  have hids : (m.timer.addTimer now microTime data func).2.ids ~ id :: m.timer.ids :=
    (List.perm_orderedInsert ..).map _
  have hlog : (m.addTimer now microTime data func).2.log =
      m.log ++ [.added id (now + microTime)] := rfl
  constructor
  · intro id' hmem
    rw [hlog, addedIds_append, List.mem_append] at hmem
    change id' < id + 1
    rcases hmem with hmem | hmem
    · have hlt := hsound.fresh id' hmem
      omega
    · obtain rfl : id' = id := List.mem_singleton.mp hmem
      omega
  · rw [hlog, addedIds_append]
    exact List.nodup_append'.mpr
      ⟨hsound.nodup, List.nodup_singleton _, List.disjoint_singleton.mpr hnew⟩
  · rw [hlog]
    simp only [addedIds_append, deletedIds_append, expiredIds_append]
    calc addedIds m.log ++ [id]
        ~ id :: addedIds m.log := List.perm_append_singleton _ _
      _ ~ id :: (m.timer.ids ++ (deletedIds m.log ++ expiredIds m.log)) := hsound.placed.cons _
      _ ~ (m.timer.addTimer now microTime data func).2.ids ++
            (deletedIds m.log ++ expiredIds m.log) := hids.symm.append_right _
      _ = _ := by simp [deletedIds, expiredIds, Machine.addTimer]
  · rw [hlog]
    simpa [expiredIds, executedIds] using hsound.started
  · intro entry hmem
    rw [hlog]
    rcases (List.mem_orderedInsert _).mp hmem with rfl | hmem
    · exact List.mem_append_right _ (List.mem_singleton_self _)
    · exact List.mem_append_left _ (hsound.known entry hmem)
  · exact hsound.fair.concat trivial

theorem delTimer_of_mem {index : ℤ} {timer : Timer} (hmem : index ∈ timer.ids) :
    (timer.delTimer index).1 = true ∧ timer.ids ~ index :: (timer.delTimer index).2.ids := by
  obtain ⟨entry, hentry, heq⟩ := List.mem_map.mp hmem
  obtain ⟨erased, front, back, -, herased, hsplit, hrest⟩ :=
    List.exists_of_eraseP (p := fun entry : ℤ × TimerElement => entry.2.id = index) hentry
      (decide_eq_true heq)
  have hany : timer.timeEle.any (fun entry => entry.2.id = index) = true :=
    List.any_eq_true.mpr ⟨entry, hentry, decide_eq_true heq⟩
  rw [Timer.delTimer, if_pos hany, Timer.ids, Timer.ids]
  refine ⟨rfl, ?_⟩
  dsimp only
  rw [hrest, hsplit, List.map_append, List.map_cons, List.map_append,
    of_decide_eq_true herased]
  exact List.perm_middle

theorem delTimer_of_notMem {index : ℤ} {timer : Timer} (hmem : index ∉ timer.ids) :
    timer.delTimer index = (false, timer) := by
  rw [Timer.delTimer, if_neg]
  intro hany
  obtain ⟨entry, hentry, heq⟩ := List.any_eq_true.mp hany
  exact hmem (List.mem_map.mpr ⟨entry, hentry, of_decide_eq_true heq⟩)

theorem mem_delTimer {index : ℤ} {timer : Timer} {entry : ℤ × TimerElement}
    (hmem : entry ∈ (timer.delTimer index).2.timeEle) : entry ∈ timer.timeEle := by
  rw [Timer.delTimer] at hmem
  split at hmem
  · exact List.mem_of_mem_eraseP hmem
  · exact hmem

theorem globalElementId_delTimer (index : ℤ) (timer : Timer) :
    (timer.delTimer index).2.globalElementId = timer.globalElementId := by
  rw [Timer.delTimer]
  split <;> rfl

theorem Sound.delTimer (hsound : Sound m behind) (index : ℤ) :
    Sound (m.delTimer index).2 behind := by
  have hlog : (m.delTimer index).2.log =
      m.log ++ [.delTimer index (m.timer.delTimer index).1] := rfl
  have hadded : addedIds (m.delTimer index).2.log = addedIds m.log := by
    rw [hlog, addedIds_append]
    exact List.append_nil _
  have hexpired : expiredIds (m.delTimer index).2.log = expiredIds m.log := by
    rw [hlog, expiredIds_append]
    exact List.append_nil _
  have hexecuted : executedIds (m.delTimer index).2.log = executedIds m.log := by
    rw [hlog, executedIds_append]
    exact List.append_nil _
  constructor
  · intro id hmem
    rw [hadded] at hmem
    exact (hsound.fresh id hmem).trans_eq (globalElementId_delTimer index m.timer).symm
  · rw [hadded]
    exact hsound.nodup
  · rw [hadded, hexpired, hlog, deletedIds_append]
    change _ ~ (m.timer.delTimer index).2.ids ++ _
    by_cases hmem : index ∈ m.timer.ids
    · -- the timer goes from `time_ele_` to those that were deleted
      obtain ⟨hfound, hids⟩ := delTimer_of_mem hmem
      rw [hfound]
      calc addedIds m.log
          ~ m.timer.ids ++ (deletedIds m.log ++ expiredIds m.log) := hsound.placed
        _ ~ index :: (m.timer.delTimer index).2.ids ++ (deletedIds m.log ++ expiredIds m.log) :=
            hids.append_right _
        _ ~ (m.timer.delTimer index).2.ids ++ (index :: deletedIds m.log ++ expiredIds m.log) :=
            List.perm_middle.symm
        _ ~ _ := ((List.perm_append_singleton _ _).symm.append_right _).append_left _
    · rw [delTimer_of_notMem hmem]
      have hnone : deletedIds [.delTimer index false] = [] := rfl
      rw [hnone, List.append_nil]
      exact hsound.placed
  · rw [hexpired, hexecuted]
    exact hsound.started
  · intro entry hmem
    rw [hlog]
    exact List.mem_append_left _ (hsound.known entry (mem_delTimer hmem))
  · rw [hlog]
    refine hsound.fair.concat ?_
    change _ ↔ _
    rw [← hsound.mem_ids]
    by_cases hmem : index ∈ m.timer.ids
    · exact iff_of_true (delTimer_of_mem hmem).1 hmem
    · rw [delTimer_of_notMem hmem]
      exact iff_of_false Bool.false_ne_true hmem

/-- **A callback** leaves every timer in one place. -/
theorem Sound.callback (callback : Callback) :
    ∀ {m : Machine}, Sound m behind → Sound (callback.run m) behind ∧
      m.log <+: (callback.run m).log := by
  induction callback with
  | done => exact fun hsound => ⟨hsound, List.prefix_rfl⟩
  | addTimer now microTime data func next _ ih =>
      intro m hsound
      obtain ⟨hnext, hlog⟩ := ih _ (hsound.addTimer now microTime data func)
      exact ⟨hnext, (List.prefix_append _ _).trans hlog⟩
  | delTimer index next ih =>
      intro m hsound
      obtain ⟨hnext, hlog⟩ := ih _ (hsound.delTimer index)
      exact ⟨hnext, (List.prefix_append _ _).trans hlog⟩

/-! ## OnTimer -/

/-- The timer was added with a time that is over. -/
def Due (currentTime : ℤ) (log : List TimerEvent) (element : TimerElement) : Prop :=
  ∃ expireTime ≤ currentTime, .added element.id expireTime ∈ log

/-- What `CheckExpire` writes to the log. -/
theorem lists_checkExpire (log : List TimerEvent) (elements : List TimerElement) :
    addedIds (log ++ elements.map fun element => .expired element.id) = addedIds log ∧
      deletedIds (log ++ elements.map fun element => .expired element.id) = deletedIds log ∧
      executedIds (log ++ elements.map fun element => .expired element.id) = executedIds log ∧
      expiredIds (log ++ elements.map fun element => .expired element.id) =
        expiredIds log ++ elements.map TimerElement.id := by
  refine ⟨?_, ?_, ?_, ?_⟩
  · simp [addedIds, List.filterMap_map]
  · simp [deletedIds, List.filterMap_map]
  · simp [executedIds, List.filterMap_map]
  · simp [expiredIds, List.filterMap_map]

/-- **CheckExpire** moves what is due. -/
theorem Sound.checkExpire (hsound : Sound m []) (curTime : ℤ) :
    Sound (m.checkExpire curTime) (m.timer.expiredAt curTime) ∧
      ∀ element ∈ m.timer.expiredAt curTime,
        Due curTime (m.checkExpire curTime).log element := by
  set moved := m.timer.expiredAt curTime with hmoved
  have hlog : (m.checkExpire curTime).log =
      m.log ++ moved.map fun element => .expired element.id := rfl
  obtain ⟨hadded, hdeleted, hexecuted, hexpired⟩ := lists_checkExpire m.log moved
  rw [← hlog] at hadded hdeleted hexecuted hexpired
  have hids : m.timer.ids =
      moved.map TimerElement.id ++ (m.checkExpire curTime).timer.ids := by
    rw [hmoved, Timer.expiredAt, List.map_map]
    exact (congrArg _ List.takeWhile_append_dropWhile.symm).trans List.map_append
  constructor
  · constructor
    · intro id hmem
      rw [hadded] at hmem
      exact hsound.fresh id hmem
    · rw [hadded]
      exact hsound.nodup
    · -- the timers that are due go from `time_ele_` to those that were moved
      rw [hadded, hdeleted, hexpired]
      refine hsound.placed.trans ?_
      rw [hids, List.perm_iff_count]
      intro id
      simp only [List.count_append]
      omega
    · rw [hexpired, hexecuted]
      exact hsound.executed_perm.append_right _
    · intro entry hmem
      rw [hlog]
      exact List.mem_append_left _ (hsound.known entry ((List.dropWhile_sublist _).subset hmem))
    · rw [hlog]
      refine hsound.fair.append fun event hevent before => ?_
      obtain ⟨element, -, rfl⟩ := List.mem_map.mp hevent
      trivial
  · intro element hmem
    obtain ⟨entry, hentry, rfl⟩ := List.mem_map.mp hmem
    have hle := List.mem_takeWhile_imp hentry
    refine ⟨entry.1, of_decide_eq_true hle, ?_⟩
    rw [hlog]
    exact List.mem_append_left _
      (hsound.known entry ((List.takeWhile_sublist _).subset hentry))

/-- **Excute** of the next element. -/
theorem Sound.excute {currentTime : ℤ} (hsound : Sound m (element :: behind))
    (hdue : Due currentTime m.log element) :
    Sound (m.excute currentTime element) behind ∧ m.log <+: (m.excute currentTime element).log := by
  have hstarted : Sound { m with log := m.log ++ [.executed element.id currentTime] } behind := by
    have hadded : addedIds (m.log ++ [.executed element.id currentTime]) = addedIds m.log := by
      rw [addedIds_append]
      exact List.append_nil _
    have hdeleted : deletedIds (m.log ++ [.executed element.id currentTime]) =
        deletedIds m.log := by
      rw [deletedIds_append]
      exact List.append_nil _
    have hexpired : expiredIds (m.log ++ [.executed element.id currentTime]) =
        expiredIds m.log := by
      rw [expiredIds_append]
      exact List.append_nil _
    have hexecuted : executedIds (m.log ++ [.executed element.id currentTime]) =
        executedIds m.log ++ [element.id] := by
      rw [executedIds_append]
      rfl
    constructor
    · dsimp only
      rw [hadded]
      exact hsound.fresh
    · dsimp only
      rw [hadded]
      exact hsound.nodup
    · dsimp only
      rw [hadded, hdeleted, hexpired]
      exact hsound.placed
    · -- the element is the first of those that wait
      dsimp only
      rw [hexpired, hexecuted, List.append_assoc]
      exact hsound.started
    · exact fun entry hmem => List.mem_append_left _ (hsound.known entry hmem)
    · exact hsound.fair.concat hdue
  obtain ⟨hnext, hlog⟩ := Sound.callback (element.func element.data) hstarted
  exact ⟨hnext, (List.prefix_append _ _).trans hlog⟩

theorem Sound.foldl {currentTime : ℤ} (hsound : Sound m behind)
    (hdue : ∀ element ∈ behind, Due currentTime m.log element) :
    Sound (behind.foldl (Machine.excute currentTime) m) [] := by
  induction behind generalizing m with
  | nil => exact hsound
  | cons element behind ih =>
      obtain ⟨hnext, hlog⟩ := hsound.excute (hdue element List.mem_cons_self)
      -- the log only grows, so that what is due stays due
      refine ih hnext fun later hlater => ?_
      obtain ⟨expireTime, hle, hmem⟩ := hdue later (List.mem_cons_of_mem _ hlater)
      exact ⟨expireTime, hle, hlog.subset hmem⟩

theorem Sound.onTimer (hsound : Sound m []) (hempty : m.timer.exeuteList = [])
    (currentTime : ℤ) :
    Sound (m.onTimer currentTime) [] ∧ (m.onTimer currentTime).timer.exeuteList = [] := by
  unfold Machine.onTimer
  split
  · obtain ⟨hmoved, hdue⟩ := hsound.checkExpire currentTime
    have hlist : (m.checkExpire currentTime).timer.exeuteList = m.timer.expiredAt currentTime := by
      change m.timer.exeuteList ++ _ = _
      rw [hempty, List.nil_append]
    have hrun := hmoved.foldl hdue
    rw [← hlist] at hrun
    exact ⟨⟨hrun.fresh, hrun.nodup, hrun.placed, hrun.started, hrun.known, hrun.fair⟩, rfl⟩
  · exact ⟨hsound, hempty⟩

/-! ## Whole runs -/

theorem exeuteList_delTimer (index : ℤ) (timer : Timer) :
    (timer.delTimer index).2.exeuteList = timer.exeuteList := by
  rw [Timer.delTimer]
  split <;> rfl

theorem Sound.step (hsound : Sound m []) (hempty : m.timer.exeuteList = []) (call : TimerCall) :
    Sound (call.run m) [] ∧ (call.run m).timer.exeuteList = [] := by
  cases call with
  | addTimer now microTime data func => exact ⟨hsound.addTimer now microTime data func, hempty⟩
  | delTimer index =>
      exact ⟨hsound.delTimer index, (exeuteList_delTimer index m.timer).trans hempty⟩
  | onTimer currentTime => exact hsound.onTimer hempty currentTime

/-- **Every run** leaves every timer in one place. -/
theorem sound_run (calls : List TimerCall) : Sound (run calls) [] := by
  suffices hall : Sound (run calls) [] ∧ (run calls).timer.exeuteList = [] from hall.1
  induction calls using List.reverseRecOn with
  | nil => exact ⟨sound_start, rfl⟩
  | append_singleton calls call ih =>
      rw [run, List.foldl_append]
      exact ih.1.step ih.2 call

/-- A timer that was executed was added before. -/
theorem added_of_executed {log before after : List TimerEvent} {id : ℤ}
    (hfair : Runs.Each Fair log) (hlog : log = before ++ after) (hmem : id ∈ executedIds before) :
    id ∈ addedIds before := by
  obtain ⟨event, hevent, heq⟩ := List.mem_filterMap.mp hmem
  cases event <;> cases heq
  rename_i currentTime
  obtain ⟨first, second, rfl⟩ := List.append_of_mem hevent
  rw [List.append_assoc, List.cons_append] at hlog
  obtain ⟨expireTime, -, hadded⟩ := hfair first _ _ hlog
  exact mem_addedIds.mpr ⟨expireTime, List.mem_append_left _ hadded⟩

/-- **What `DelTimer` answers**, in a run that is over. -/
theorem Sound.delTimer_iff (hsound : Sound m []) {before after : List TimerEvent} {index : ℤ}
    {found : Bool} (hlog : m.log = before ++ .delTimer index found :: after) :
    (index ∉ executedIds after ∧
        (found = true ↔ index ∉ executedIds before ∧ index ∉ executedIds after)) ↔
      index ∈ addedIds before ∧ (index ∈ expiredIds before → index ∈ executedIds before) ∧
        index ∉ deletedIds before := by
  have hfair : found = true ↔ index ∈ addedIds before ∧ index ∉ deletedIds before ∧
      index ∉ expiredIds before := hsound.fair before _ after hlog
  have hexecuted : executedIds m.log = executedIds before ++ executedIds after := by
    rw [hlog, executedIds_append]
    rfl
  have hruns : index ∈ expiredIds before →
      index ∈ executedIds before ∨ index ∈ executedIds after := by
    intro hmem
    rw [← List.mem_append, ← hexecuted, ← hsound.executed_perm.mem_iff, hlog, expiredIds_append]
    exact List.mem_append_left _ hmem
  have hnever : index ∈ deletedIds m.log →
      index ∉ executedIds before ∧ index ∉ executedIds after := by
    intro hmem
    rw [← not_or, ← List.mem_append, ← hexecuted, ← hsound.executed_perm.mem_iff]
    exact hsound.disjoint hmem
  by_cases hadded : index ∈ addedIds before
  · by_cases hdeleted : index ∈ deletedIds before
    · -- deleted before: the answer is false, and the timer never runs
      have hfound : ¬ found = true := fun h => (hfair.mp h).2.1 hdeleted
      have hlater : index ∈ deletedIds m.log := by
        rw [hlog, deletedIds_append]
        exact List.mem_append_left _ hdeleted
      exact iff_of_false (fun h => hfound (h.2.mpr (hnever hlater))) fun h => h.2.2 hdeleted
    by_cases hexpired : index ∈ expiredIds before
    · have hfound : ¬ found = true := fun h => (hfair.mp h).2.2 hexpired
      by_cases hran : index ∈ executedIds before
      · have honce := hsound.nodup_executed
        rw [hexecuted] at honce
        have hafter : index ∉ executedIds after := (List.nodup_append'.mp honce).2.2 hran
        exact iff_of_true ⟨hafter, iff_of_false hfound fun h => h.1 hran⟩
          ⟨hadded, fun _ => hran, hdeleted⟩
      · -- it waits, and runs afterwards
        have hafter := (hruns hexpired).resolve_left hran
        exact iff_of_false (fun h => h.1 hafter) fun h => hran (h.2.1 hexpired)
    · have hfound : found = true := hfair.mpr ⟨hadded, hdeleted, hexpired⟩
      have hfresh : index ∈ deletedIds m.log := by
        rw [hlog, deletedIds_append, hfound]
        exact List.mem_append_right _ List.mem_cons_self
      have hnone := hnever hfresh
      exact iff_of_true ⟨hnone.2, iff_of_true hfound hnone⟩
        ⟨hadded, fun h => absurd h hexpired, hdeleted⟩
  · -- there is no such timer
    have hfound : ¬ found = true := fun h => hadded (hfair.mp h).1
    have hnone : index ∉ executedIds before :=
      fun hmem => hadded (added_of_executed hsound.fair hlog hmem)
    exact iff_of_false (fun h => hfound (h.2.mpr ⟨hnone, h.1⟩)) fun h => hadded h.1

/-- **Timers fire once, in time, and as `DelTimer` says.** In every run each timer is executed at
most once and not before its time.  A call of `DelTimer` is followed by no execution of its
timer, and its answer says whether the timer was not executed and never will be, if and only
if there is such a timer, it does not wait in `exeute_list_`, and it was not deleted before. -/
theorem timers_sound_iff (calls : List TimerCall) :
    (addedIds (run calls).log).Nodup ∧ (executedIds (run calls).log).Nodup ∧
      (∀ before id currentTime after,
        (run calls).log = before ++ .executed id currentTime :: after →
          ∃ expireTime ≤ currentTime, .added id expireTime ∈ before) ∧
      ∀ before index found after, (run calls).log = before ++ .delTimer index found :: after →
        ((index ∉ executedIds after ∧
            (found = true ↔ index ∉ executedIds before ∧ index ∉ executedIds after)) ↔
          index ∈ addedIds before ∧ (index ∈ expiredIds before → index ∈ executedIds before) ∧
            index ∉ deletedIds before) := by
  have hsound := sound_run calls
  exact ⟨hsound.nodup, hsound.nodup_executed,
    fun before id currentTime after hlog => hsound.fair before _ after hlog,
    fun before index found after hlog => hsound.delTimer_iff hlog⟩

/-- Two timers expire together, and the callback of the first deletes the second. -/
def twoTimers : List TimerCall :=
  [.addTimer 0 100 0 fun _ => .delTimer 2 fun _ => .done,
    .addTimer 0 100 0 fun _ => .done,
    .onTimer 200000]

/-- `DelTimer` does not find the second timer, which runs afterwards. -/
theorem deleted_timer_fires :
    ∃ before after, (run twoTimers).log = before ++ .delTimer 2 false :: after ∧
      2 ∈ addedIds before ∧ 2 ∉ executedIds before ∧ 2 ∈ executedIds after := by
  refine ⟨[.added 1 100, .added 2 100, .expired 1, .expired 2, .executed 1 200000],
    [.executed 2 200000], ?_, ?_, ?_, ?_⟩ <;> decide

/-- A timer that is deleted before it expires does not run. -/
theorem timers_sound_deleted :
    2 ∉ executedIds (run [.addTimer 0 100 0 fun _ => .done, .addTimer 0 100 0 fun _ => .done,
      .delTimer 2, .onTimer 200000]).log := by
  have hlog : (run [.addTimer 0 100 0 fun _ => .done, .addTimer 0 100 0 fun _ => .done,
      .delTimer 2, .onTimer 200000]).log = [.added 1 100, .added 2 100] ++
        .delTimer 2 true :: [.expired 1, .executed 1 200000] := by decide
  have hiff := (timers_sound_iff _).2.2.2 _ _ _ _ hlog
  rw [hlog, executedIds_append]
  have hafter := (hiff.mpr ⟨by decide, by decide, by decide⟩).1
  exact fun hmem => (List.mem_append.mp hmem).elim (by decide) hafter

end CegChain.Timers
