import CegChain.Consensus.Choice
import CegChain.Utils.Strings

/-!
# Saved view changes

`SaveViewChange` writes `vc_instances_` as a JSON array with one object for every
instance, its messages as hexadecimal strings of their protobuf bytes, and
`LoadVcInstance` reads it after a restart.  Both list the fields by hand; neither of
them names `seq` and `pre_prepared_env_set`, and the constructor of `PbftVcInstance`
does not set `seq`.

The text of a JSON value and the bytes of a message are those of the libraries
(`Wire`).  What the two functions need of them is that what was written is read back
(`Wire.Carries`); the hexadecimal strings are in `Utils/Strings`.
-/

namespace CegChain

open HexString

/-! ## JSON values -/

/-- `Json::Value`. -/
inductive Json where
  | null
  | int (value : ℤ)
  | string (value : Bytes)
  | array (values : List Json)
  | object (members : List (String × Json))

namespace Json

/-- `value[name]`. -/
def get (name : String) : Json → Json
  | object members => (members.lookup name).getD null
  | _ => null

/-- `value[0]`, ..., `value[value.size() - 1]`. -/
def elements : Json → List Json
  | array values => values
  | _ => []

/-- `asInt64`. -/
def asInt64 : Json → ℤ
  | int value => value
  | _ => 0

/-- `asUInt`. -/
def asUInt : Json → ℤ := asInt64

/-- `asString`. -/
def asString : Json → Bytes
  | string value => value
  | _ => []

/-- A value to which elements were appended one by one; it stays `null` without any. -/
def appended (values : List Json) : Json :=
  if values.isEmpty then null else array values

@[simp] theorem elements_appended (values : List Json) : (appended values).elements = values := by
  cases values <;> rfl

end Json

/-- The libraries that turn values into text and back. -/
structure Wire where
  /-- `toFastString`. -/
  toFastString : Json → Bytes
  /-- `fromString`. -/
  fromString : Bytes → Option Json
  /-- `PbftEnv::SerializeAsString`. -/
  serializeEnv : PbftEnv → Bytes
  /-- `PbftEnv::ParseFromString`. -/
  parseEnv : Bytes → Option PbftEnv
  /-- `PbftViewChange::SerializeAsString`. -/
  serializeViewChange : PbftViewChange → Bytes
  /-- `PbftViewChange::ParseFromString`. -/
  parseViewChange : Bytes → Option PbftViewChange

/-- `vc_instances_`. -/
abbrev VcInstanceMap := List (ℤ × PbftVcInstance)

section Persist

variable (wire : Wire)

/-! ## Saving -/

/-- The bytes of a message as a JSON string. -/
def hexJson (bytes : Bytes) : Json := .string (binToHexString bytes)

/-- The object that `SaveViewChange` writes for an instance. -/
def vcItem (index : ℤ) (vcInstance : PbftVcInstance) : Json :=
  .object [
    ("sequence", .int index),
    ("view_number", .int vcInstance.viewNumber),
    ("view_change_round", .int vcInstance.viewChangeRound),
    ("start_time", .int vcInstance.startTime),
    ("end_time", .int vcInstance.endTime),
    ("last_propose_time", .int vcInstance.lastProposeTime),
    ("last_newview_time", .int vcInstance.lastNewviewTime),
    ("new_view_round", .int vcInstance.newViewRound),
    -- a message that was never set has no bytes
    ("view_change_msg", hexJson ((vcInstance.viewChangeMsg?.map wire.serializeEnv).getD [])),
    ("new_view", hexJson (wire.serializeEnv vcInstance.newview)),
    ("msg_buffer", .appended (vcInstance.msgBuf.map fun env => hexJson (wire.serializeEnv env))),
    ("view_changes", .appended (vcInstance.viewchanges.map fun entry =>
      hexJson (wire.serializeViewChange entry.2)))]

/-- The value that `SaveViewChange` builds. -/
def vcItems (vcInstances : VcInstanceMap) : Json :=
  .array (vcInstances.map fun entry => vcItem wire entry.1 entry.2)

/-- `SaveViewChange`. -/
def saveViewChange (vcInstances : VcInstanceMap) : Bytes :=
  wire.toFastString (vcItems wire vcInstances)

/-! ## Loading -/

/-- What `ParseFromString` finds in a JSON string. -/
def parseHex {α : Type*} (parse : Bytes → Option α) (item : Json) : Option α :=
  parse (hexStringToBin item.asString)

/-- `PbftVcInstance()` at the given time, with `seq` as the memory has it. -/
def PbftVcInstance.unset (now memory : ℤ) : PbftVcInstance :=
  { startTime := now, lastProposeTime := now, seq := memory }

/-- The fields that `LoadVcInstance` sets from an object. -/
def PbftVcInstance.load (item : Json) (vcInstance : PbftVcInstance) : PbftVcInstance :=
  { vcInstance with
    viewNumber := (item.get "view_number").asInt64
    viewChangeRound := (item.get "view_change_round").asUInt
    startTime := (item.get "start_time").asInt64
    endTime := (item.get "end_time").asInt64
    lastProposeTime := (item.get "last_propose_time").asInt64
    lastNewviewTime := (item.get "last_newview_time").asInt64
    newViewRound := (item.get "new_view_round").asUInt
    -- no bytes are a message without fields
    viewChangeMsg? :=
      if hexStringToBin (item.get "view_change_msg").asString = [] then none
      else parseHex wire.parseEnv (item.get "view_change_msg")
    newview := (parseHex wire.parseEnv (item.get "new_view")).getD default
    msgBuf := vcInstance.msgBuf ++
      (item.get "msg_buffer").elements.filterMap (parseHex wire.parseEnv)
    viewchanges :=
      ((item.get "view_changes").elements.filterMap (parseHex wire.parseViewChange)).foldl
        (fun viewchanges env => OrderedMap.insertNew env.replicaId env viewchanges)
        vcInstance.viewchanges }

/-- The body of the loop of `LoadVcInstance`, where `memory` is what the memory of a new
instance holds. -/
def loadItem (memory : ℤ → ℤ) (now : ℤ) (vcInstances : VcInstanceMap) (item : Json) :
    VcInstanceMap :=
  let index := (item.get "sequence").asInt64
  let vcInstance := (vcInstances.lookup index).getD (.unset now (memory index))
  OrderedMap.insert index (vcInstance.load wire item) vcInstances

/-- `LoadVcInstance`, from what was stored. -/
def loadVcInstance (memory : ℤ → ℤ) (now : ℤ) (stored : Option Bytes)
    (vcInstances : VcInstanceMap) : ℤ × VcInstanceMap :=
  match stored with
  | none => (0, vcInstances)
  | some strInstance =>
      match wire.fromString strInstance with
      | none => (-1, vcInstances)
      | some jsonInstance =>
          (1, jsonInstance.elements.foldl (loadItem wire memory now) vcInstances)

/-- What is written for the map is read back. -/
structure Wire.Carries (vcInstances : VcInstanceMap) : Prop where
  json : wire.fromString (wire.toFastString (vcItems wire vcInstances)) =
    some (vcItems wire vcInstances)
  env : ∀ entry ∈ vcInstances,
    ∀ env ∈ entry.2.viewChangeMsg?.toList ++ entry.2.newview :: entry.2.msgBuf,
      wire.parseEnv (wire.serializeEnv env) = some env
  /-- A message that was set has bytes. -/
  viewChangeMsg : ∀ entry ∈ vcInstances, ∀ env ∈ entry.2.viewChangeMsg?,
    wire.serializeEnv env ≠ []
  viewChange : ∀ entry ∈ vcInstances, ∀ viewChange ∈ entry.2.viewchanges,
    wire.parseViewChange (wire.serializeViewChange viewChange.2) = some viewChange.2

end Persist

/-! ## Maps as they are kept -/

/-- The view changes of an instance are filed under their senders. -/
structure PbftVcInstance.Filed (vcInstance : PbftVcInstance) : Prop where
  ordered : OrderedMap.Ordered vcInstance.viewchanges
  sender : ∀ entry ∈ vcInstance.viewchanges, entry.2.replicaId = entry.1

/-- The instances are a map, and so are the view changes in them. -/
structure VcInstanceMap.Filed (vcInstances : VcInstanceMap) : Prop where
  ordered : OrderedMap.Ordered vcInstances
  instances : ∀ entry ∈ vcInstances, entry.2.Filed

section Loading

variable {wire : Wire} {memory : ℤ → ℤ} {now index : ℤ} {vcInstance : PbftVcInstance}
  {vcInstances : VcInstanceMap}

/-- What is left of an instance: `seq` and the prepared set are not saved. -/
def PbftVcInstance.restored (memory : ℤ) (vcInstance : PbftVcInstance) : PbftVcInstance :=
  { vcInstance with seq := memory, prePreparedEnvSet := default }

@[simp] theorem parseHex_hexJson {α : Type*} (parse : Bytes → Option α) (bytes : Bytes) :
    parseHex parse (hexJson bytes) = parse bytes := by
  rw [parseHex, hexJson, Json.asString, hexStringToBin_binToHexString]

theorem filterMap_parseHex {α : Type*} {parse : Bytes → Option α} {serialize : α → Bytes}
    {messages : List α} (hparse : ∀ m ∈ messages, parse (serialize m) = some m) :
    (messages.map fun m => hexJson (serialize m)).filterMap (parseHex parse) = messages := by
  induction messages with
  | nil => rfl
  | cons m messages ih =>
      rw [List.map_cons, List.filterMap_cons_some (b := m), ih]
      · exact fun other hother => hparse other (List.mem_cons_of_mem _ hother)
      · rw [parseHex_hexJson]
        exact hparse m (List.mem_cons_self ..)

/-- An instance filed under its senders is rebuilt from the view changes alone. -/
theorem foldl_viewchanges (hfiled : vcInstance.Filed) :
    (vcInstance.viewchanges.map Prod.snd).foldl
      (fun viewchanges env => OrderedMap.insertNew env.replicaId env viewchanges) [] =
        vcInstance.viewchanges := by
  have hentries : (vcInstance.viewchanges.map Prod.snd).map
      (fun env : PbftViewChange => (env.replicaId, env)) = vcInstance.viewchanges := by
    rw [List.map_map]
    refine (List.map_congr_left fun entry hentry => ?_).trans (List.map_id _)
    exact Prod.ext (hfiled.sender entry hentry) rfl
  have hordered : OrderedMap.Ordered ([] ++ (vcInstance.viewchanges.map Prod.snd).map
      fun env : PbftViewChange => (env.replicaId, env)) := by
    rw [List.nil_append, hentries]
    exact hfiled.ordered
  rw [OrderedMap.foldl_eq_append (fun env _ built hnew =>
    OrderedMap.insertNew_of_not_mem env hnew) hordered, List.nil_append, hentries]

/-- **Loading an object that was saved** gives the instance without `seq` and without its
prepared set. -/
theorem load_vcItem (hcarries : wire.Carries vcInstances) (hmem : (index, vcInstance) ∈ vcInstances)
    (hfiled : vcInstance.Filed) (now memory : ℤ) :
    (PbftVcInstance.unset now memory).load wire (vcItem wire index vcInstance) =
      vcInstance.restored memory := by
  have henv := hcarries.env _ hmem
  have hbuf : ∀ env ∈ vcInstance.msgBuf, wire.parseEnv (wire.serializeEnv env) = some env :=
    fun env hmem => henv env (List.mem_append_right _ (List.mem_cons_of_mem _ hmem))
  have hnewview : wire.parseEnv (wire.serializeEnv vcInstance.newview) =
      some vcInstance.newview := henv _ (List.mem_append_right _ (List.mem_cons_self ..))
  have hviewChange : ∀ viewChange ∈ vcInstance.viewchanges.map Prod.snd,
      wire.parseViewChange (wire.serializeViewChange viewChange) = some viewChange := by
    intro viewChange hviewChange
    obtain ⟨entry, hentry, rfl⟩ := List.mem_map.mp hviewChange
    exact hcarries.viewChange _ hmem entry hentry
  have hviewchanges : ((vcInstance.viewchanges.map fun entry =>
      hexJson (wire.serializeViewChange entry.2)).filterMap
        (parseHex wire.parseViewChange)) = vcInstance.viewchanges.map Prod.snd := by
    rw [← filterMap_parseHex hviewChange, List.map_map]
    rfl
  have hmsg : (if (vcInstance.viewChangeMsg?.map wire.serializeEnv).getD [] = [] then none
      else wire.parseEnv ((vcInstance.viewChangeMsg?.map wire.serializeEnv).getD [])) =
      vcInstance.viewChangeMsg? := by
    cases hset : vcInstance.viewChangeMsg? with
    | none => rfl
    | some env =>
        have hbytes := hcarries.viewChangeMsg _ hmem env hset
        rw [Option.map_some, Option.getD_some, if_neg hbytes]
        exact henv env (List.mem_append_left _ (by simp [hset]))
  -- every member of the object is read where it was written
  simp only [PbftVcInstance.load, PbftVcInstance.restored, PbftVcInstance.unset, vcItem, Json.get,
    List.lookup_cons, String.reduceBEq, Option.getD_some, Json.asInt64, Json.asUInt,
    Json.elements_appended, parseHex_hexJson, hnewview, hviewchanges, foldl_viewchanges hfiled,
    filterMap_parseHex hbuf, List.nil_append]
  simp only [hexJson, Json.asString, hexStringToBin_binToHexString, hmsg]

/-- A restart gives back the map without `seq` and without the prepared sets. -/
theorem load_saveViewChange (hcarries : wire.Carries vcInstances)
    (hfiled : VcInstanceMap.Filed vcInstances) (memory : ℤ → ℤ) (now : ℤ) :
    loadVcInstance wire memory now (some (saveViewChange wire vcInstances)) [] =
      (1, vcInstances.map fun entry => (entry.1, entry.2.restored (memory entry.1))) := by
  have hordered : OrderedMap.Ordered ([] ++ vcInstances.map fun entry =>
      (entry.1, entry.2.restored (memory entry.1))) :=
    hfiled.ordered.of_keys (by rw [List.nil_append, List.map_map]; rfl)
  have hstep : ∀ entry ∈ vcInstances, ∀ built : VcInstanceMap, entry.1 ∉ built.map Prod.fst →
      loadItem wire memory now built (vcItem wire entry.1 entry.2) =
        OrderedMap.insert entry.1 (entry.2.restored (memory entry.1)) built := by
    intro entry hentry built hnew
    have hindex : ((vcItem wire entry.1 entry.2).get "sequence").asInt64 = entry.1 := rfl
    have hlookup : built.lookup entry.1 = none := OrderedMap.lookup_eq_none_iff.mpr hnew
    dsimp only [loadItem]
    rw [hindex, hlookup, Option.getD_none,
      load_vcItem hcarries hentry (hfiled.instances entry hentry)]
  have hloop := OrderedMap.foldl_eq_append (g := fun entry : ℤ × PbftVcInstance =>
    (entry.1, entry.2.restored (memory entry.1))) hstep hordered
  rw [loadVcInstance, saveViewChange, hcarries.json]
  show ((1 : ℤ), (vcInstances.map fun entry => vcItem wire entry.1 entry.2).foldl
    (loadItem wire memory now) []) = _
  rw [List.foldl_map, hloop, List.nil_append]

/-- The instance is as it was exactly when nothing is lost. -/
theorem restored_eq_iff {memory : ℤ} :
    vcInstance.restored memory = vcInstance ↔
      vcInstance.seq = memory ∧ vcInstance.prePreparedEnvSet = default := by
  constructor
  · intro heq
    exact ⟨(congrArg PbftVcInstance.seq heq).symm,
      (congrArg PbftVcInstance.prePreparedEnvSet heq).symm⟩
  · rintro ⟨rfl, hset⟩
    rw [PbftVcInstance.restored, ← hset]

end Loading

/-! ## Agreement leaves the view changes alone -/

section Agreement

variable {crypto : Crypto} {key : PrivateKey} {st : PbftState}

theorem onPrePrepare_vcInstances (pbft : Pbft) (index : PbftInstanceIndex)
    (checkValue : CheckValueResult) (st : PbftState) :
    (onPrePrepare crypto key pbft index checkValue st).1.vcInstances = st.vcInstances := by
  dsimp only [onPrePrepare]
  split_ifs
  · rfl
  · rfl
  · rfl
  · rfl
  · rfl
  · exact sendMessage_vcInstances
  · rfl
  · exact sendMessage_vcInstances

theorem onPrepare_vcInstances (pbft : Pbft) (index : PbftInstanceIndex) (now : ℤ)
    (st : PbftState) : (onPrepare crypto key pbft index now st).1.vcInstances = st.vcInstances := by
  dsimp only [onPrepare]
  split_ifs
  · rfl
  · exact sendMessage_vcInstances
  · rfl
  · exact sendMessage_vcInstances
  · rfl
  · rfl

theorem tryExecuteLoop_vcInstances (rest : List (PbftInstanceIndex × PbftInstance)) :
    ∀ st : PbftState, (tryExecuteLoop rest st).vcInstances = st.vcInstances := by
  induction rest with
  | nil => exact fun _ => rfl
  | cons entry rest ih =>
      intro st
      rw [tryExecuteLoop]
      split_ifs
      · exact ih st
      · exact ih _
      · rfl

theorem onCommit_vcInstances (pbft : Pbft) (index : PbftInstanceIndex) (now : ℤ)
    (st : PbftState) : (onCommit pbft index now st).1.vcInstances = st.vcInstances := by
  dsimp only [onCommit]
  split_ifs
  · rfl
  · rfl
  · exact tryExecuteLoop_vcInstances _ _
  · rfl

theorem onPhaseMessage_vcInstances (pbft : Pbft) (index : PbftInstanceIndex)
    (checkValue : CheckValueResult) (now : ℤ) (st : PbftState) :
    (onPhaseMessage crypto key pbft index checkValue now st).1.vcInstances = st.vcInstances := by
  unfold onPhaseMessage
  split
  · exact onPrePrepare_vcInstances ..
  · exact onPrepare_vcInstances ..
  · exact onCommit_vcInstances ..
  · rfl

theorem goLoop_vcInstances (index : PbftInstanceIndex) (checkValue : CheckValueResult) (now : ℤ)
    (fuel : ℕ) : ∀ (doret : Bool) (st : PbftState),
      (goLoop crypto key index checkValue now fuel doret st).1.vcInstances = st.vcInstances := by
  induction fuel with
  | zero => exact fun _ _ => rfl
  | succ fuel ih =>
      intro doret st
      rw [goLoop]
      dsimp only
      split
      · rfl
      · exact (ih _ _).trans (onPhaseMessage_vcInstances ..)

theorem go_vcInstances (env : PbftEnv) (index : PbftInstanceIndex) (checkValue : CheckValueResult)
    (now : ℤ) (st : PbftState) :
    (go crypto key env index checkValue now st).1.vcInstances = st.vcInstances := by
  dsimp only [go]
  split_ifs
  · exact onPhaseMessage_vcInstances ..
  · exact goLoop_vcInstances ..

end Agreement

/-! ## Every map that a replica keeps -/

section Kept

variable {crypto : Crypto} {key : PrivateKey} {st : PbftState} {vcInstances : VcInstanceMap}
  {vcInstance : PbftVcInstance}

theorem PbftVcInstance.Filed.of_viewchanges {vcInstance' : PbftVcInstance}
    (hfiled : vcInstance.Filed) (heq : vcInstance'.viewchanges = vcInstance.viewchanges) :
    vcInstance'.Filed :=
  ⟨heq ▸ hfiled.ordered, heq ▸ hfiled.sender⟩

theorem PbftVcInstance.filed_of_nil (hnil : vcInstance.viewchanges = []) : vcInstance.Filed :=
  ⟨hnil ▸ OrderedMap.Ordered.nil, by simp [hnil]⟩

namespace VcInstanceMap.Filed

theorem nil : VcInstanceMap.Filed [] :=
  ⟨OrderedMap.Ordered.nil, by simp⟩

theorem filter (hfiled : VcInstanceMap.Filed vcInstances) (keep : ℤ × PbftVcInstance → Bool) :
    VcInstanceMap.Filed (vcInstances.filter keep) :=
  ⟨hfiled.ordered.filter keep, fun entry hentry =>
    hfiled.instances entry (List.mem_of_mem_filter hentry)⟩

theorem insert (hfiled : VcInstanceMap.Filed vcInstances) (viewNumber : ℤ)
    (hinstance : vcInstance.Filed) :
    VcInstanceMap.Filed (OrderedMap.insert viewNumber vcInstance vcInstances) := by
  refine ⟨hfiled.ordered.insert viewNumber vcInstance, fun entry hentry => ?_⟩
  rcases OrderedMap.mem_insert.mp hentry with rfl | ⟨hold, -⟩
  · exact hinstance
  · exact hfiled.instances entry hold

/-- Instances keep their view changes. -/
theorem map (hfiled : VcInstanceMap.Filed vcInstances)
    {change : ℤ × PbftVcInstance → ℤ × PbftVcInstance}
    (hkey : ∀ entry, (change entry).1 = entry.1)
    (hviewchanges : ∀ entry, (change entry).2.viewchanges = entry.2.viewchanges) :
    VcInstanceMap.Filed (vcInstances.map change) := by
  refine ⟨hfiled.ordered.of_keys ?_, fun entry hentry => ?_⟩
  · rw [List.map_map]
    exact List.map_congr_left fun entry _ => hkey entry
  · obtain ⟨old, hold, rfl⟩ := List.mem_map.mp hentry
    exact (hfiled.instances old hold).of_viewchanges (hviewchanges old)

theorem lookup (hfiled : VcInstanceMap.Filed vcInstances) (viewNumber : ℤ)
    (fresh : PbftVcInstance) (hfresh : fresh.viewchanges = []) :
    ((vcInstances.lookup viewNumber).getD fresh).Filed := by
  cases hlookup : vcInstances.lookup viewNumber with
  | none => exact PbftVcInstance.filed_of_nil hfresh
  | some found => exact hfiled.instances _ (OrderedMap.mem_of_lookup hlookup)

end VcInstanceMap.Filed

/-- The handler keeps the map filed. -/
abbrev PbftState.Files (st st' : PbftState) : Prop :=
  VcInstanceMap.Filed st.vcInstances → VcInstanceMap.Filed st'.vcInstances

theorem PbftState.Files.of_eq {st' : PbftState} (heq : st'.vcInstances = st.vcInstances) :
    st.Files st' :=
  fun hfiled => heq ▸ hfiled

theorem traceOutPbftCommit_files (env : PbftEnv) (now : ℤ) (st : PbftState) :
    st.Files (traceOutPbftCommit env now st) := by
  dsimp only [traceOutPbftCommit, tryDoTraceOut]
  split_ifs
  · exact .of_eq (onCommit_vcInstances ..)
  · exact .of_eq rfl
  · exact fun hfiled => hfiled.filter _
  · exact .of_eq rfl

theorem createInstanceIfNotExist_files (env : PbftEnv) (index : PbftInstanceIndex) (now : ℤ)
    (st : PbftState) : st.Files (createInstanceIfNotExist env index now st).1 := by
  dsimp only [createInstanceIfNotExist]
  split_ifs
  · exact traceOutPbftCommit_files env now st
  · exact .of_eq rfl
  · exact .of_eq rfl
  · exact .of_eq rfl
  · exact .of_eq rfl
  · exact .of_eq rfl

/-- What `OnViewChangeWithRawValue` writes is filed under its sender. -/
theorem filed_receive (hfiled : vcInstance.Filed) (pbftEnv : PbftEnv) (replicaId lastExeSeq : ℤ) :
    (vcInstance.receive pbftEnv replicaId lastExeSeq).Filed := by
  have hkept : (vcInstance.receive pbftEnv replicaId lastExeSeq).viewchanges =
        vcInstance.viewchanges ∨
      (vcInstance.receive pbftEnv replicaId lastExeSeq).viewchanges =
        OrderedMap.insert
          pbftEnv.pbft.viewChangeWithRawvalue.viewChangeEnv.pbft.viewChange.replicaId
          pbftEnv.pbft.viewChangeWithRawvalue.viewChangeEnv.pbft.viewChange
          vcInstance.viewchanges := by
    unfold PbftVcInstance.receive
    dsimp only
    split_ifs <;> split <;> (try split_ifs) <;> simp
  rcases hkept with heq | heq
  · exact hfiled.of_viewchanges heq
  · constructor
    · rw [heq]
      exact hfiled.ordered.insert _ _
    · intro entry hentry
      rw [heq] at hentry
      rcases OrderedMap.mem_insert.mp hentry with rfl | ⟨hold, -⟩
      · rfl
      · exact hfiled.sender entry hold

theorem processQuorumViewChange_files (viewNumber now : ℤ) (st : PbftState) :
    st.Files (processQuorumViewChange crypto key viewNumber now st).1 := by
  intro hfiled
  have hinstance := hfiled.lookup viewNumber {} rfl
  dsimp only [processQuorumViewChange]
  split
  · exact hfiled
  · refine VcInstanceMap.Filed.filter (VcInstanceMap.Filed.insert ?_ viewNumber
      (PbftVcInstance.Filed.of_viewchanges hinstance ?_)) _
    · show VcInstanceMap.Filed (st.sendMessage _).vcInstances
      rw [sendMessage_vcInstances]
      exact hfiled
    · rfl

theorem onViewChangeWithRawValue_files (pbftEnv : PbftEnv) (now : ℤ) (st : PbftState) :
    st.Files (onViewChangeWithRawValue crypto key pbftEnv now st).1 := by
  intro hfiled
  have hreceived := fun viewNumber sequence =>
    hfiled.insert viewNumber (filed_receive (hfiled.lookup viewNumber
      { PbftVcInstance.new viewNumber now with seq := sequence } rfl)
      pbftEnv st.replicaId st.lastExeSeq)
  dsimp only [onViewChangeWithRawValue]
  split_ifs
  · exact hfiled
  · exact hfiled
  · exact processQuorumViewChange_files _ _ _ (hreceived _ _)
  · exact hreceived _ _

theorem onNewView_files (pbftEnv : PbftEnv) (now : ℤ) (st : PbftState) :
    st.Files (onNewView crypto pbftEnv now st).1 := by
  intro hfiled
  dsimp only [onNewView]
  split
  · exact hfiled
  · split
    · exact hfiled
    · split
      · exact hfiled
      · split
        · exact hfiled
        · split
          · exact hfiled
          · refine VcInstanceMap.Filed.filter (hfiled.map (fun entry => ?_) fun entry => ?_) _
            · split_ifs <;> rfl
            · split_ifs <;> rfl

theorem onRecv_files (env : PbftEnv) (checkValue : CheckValueResult) (now : ℤ) (st : PbftState) :
    st.Files (onRecv crypto key env checkValue now st).1 := by
  unfold onRecv
  split
  · exact id
  · split
    · rename_i index hindex
      have hcreated := createInstanceIfNotExist_files env index now st
      dsimp only
      split
      · exact fun hfiled => (PbftState.Files.of_eq (go_vcInstances ..)) (hcreated hfiled)
      · exact hcreated
    · split
      · exact onViewChangeWithRawValue_files env now st
      · exact onNewView_files env now st
      · exact id

theorem onTxTimeout_vcInstances (st : PbftState) :
    (onTxTimeout crypto key st).vcInstances = st.vcInstances := by
  unfold onTxTimeout
  split
  · exact sendMessage_vcInstances
  · rfl

theorem onNewViewRepondTimer_vcInstances (timer : ℕ) (st : PbftState) :
    (onNewViewRepondTimer crypto key timer st).vcInstances = st.vcInstances := by
  unfold onNewViewRepondTimer
  split
  · rfl
  · dsimp only
    split
    · rfl
    · exact sendMessage_vcInstances

theorem request_vcInstances (value : Bytes) (now : ℤ) (st : PbftState) :
    (request crypto key value now st).1.vcInstances = st.vcInstances := by
  unfold request
  split
  · rfl
  · split
    · rfl
    · exact sendMessage_vcInstances

theorem onTimerInstance_vcInstances (currentTime : ℤ) (st : PbftState) (index : PbftInstanceIndex) :
    (onTimerInstance crypto key currentTime st index).vcInstances = st.vcInstances := by
  have hagain : ∀ (pinstance : PbftInstance) (st : PbftState),
      (sendPrepareAgain crypto key currentTime index pinstance st).vcInstances =
        st.vcInstances := by
    intro pinstance st
    unfold sendPrepareAgain
    split
    · split
      · exact sendMessage_vcInstances
      · rfl
    · rfl
  unfold onTimerInstance
  split
  · rfl
  · split
    · exact (hagain _ _).trans (onTxTimeout_vcInstances st)
    · exact hagain _ _

/-- The timer keeps the view changes of an instance. -/
theorem onTimerViewChange_files (currentTime : ℤ) (st : PbftState) (viewNumber : ℤ) :
    st.Files (onTimerViewChange crypto key currentTime st viewNumber) := by
  intro hfiled
  unfold onTimerViewChange
  split
  · exact hfiled
  · rename_i vcInstance hlookup
    have hinstance := hfiled.instances _ (OrderedMap.mem_of_lookup hlookup)
    split
    · exact hfiled
    · split
      · dsimp only
        rw [sendMessage_vcInstances]
        exact hfiled.insert viewNumber (hinstance.of_viewchanges rfl)
      · exact hfiled

theorem onTimerNewView_files (currentTime : ℤ) (st : PbftState) :
    st.Files (onTimerNewView crypto key currentTime st) := by
  intro hfiled
  unfold onTimerNewView
  split
  · exact hfiled
  · rename_i viewNumber vcInstance hlast
    have hinstance := hfiled.instances _ (List.mem_of_mem_filter (List.mem_of_getLast? hlast))
    dsimp only
    rw [sendMessage_vcInstances]
    exact hfiled.insert viewNumber (hinstance.of_viewchanges rfl)

theorem foldl_files {α : Type*} {handle : PbftState → α → PbftState}
    (hhandle : ∀ (st : PbftState) (a : α), st.Files (handle st a)) (items : List α) :
    ∀ st : PbftState, st.Files (items.foldl handle st) := by
  induction items with
  | nil => exact fun _ => id
  | cons item items ih => exact fun st hfiled => ih _ (hhandle st item hfiled)

theorem onTimer_files (currentTime : ℤ) (st : PbftState) :
    st.Files (onTimer crypto key currentTime st) := by
  intro hfiled
  have hinstances := foldl_files (fun st index => PbftState.Files.of_eq
    (@onTimerInstance_vcInstances crypto key currentTime st index))
    (st.instances.map Prod.fst) st hfiled
  unfold onTimer
  refine onTimerNewView_files _ _ (foldl_files (fun st viewNumber =>
    onTimerViewChange_files currentTime st viewNumber) _ _ ?_)
  rw [onTimerCommit_vcInstances]
  exact hinstances

theorem updateValidators_files (validators : List Bytes) (proof : Bytes) (st : PbftState) :
    st.Files (updateValidators crypto key validators proof st).1 := by
  intro hfiled
  have hentered : ∀ (newViewNumber newSeq : ℤ) (st : PbftState),
      st.Files (enterTarget newViewNumber newSeq st) := by
    intro newViewNumber newSeq st hfiled
    have htold : VcInstanceMap.Filed
        (if 0 < newSeq then { st with lastExeSeq := newSeq } else st).vcInstances := by
      split
      · exact hfiled
      · exact hfiled
    dsimp only [enterTarget]
    split
    · exact VcInstanceMap.Filed.filter htold _
    · exact htold
  dsimp only [updateValidators]
  generalize (if proof = [] then some (0, -1)
    else (crypto.parseProof proof).map fun pbftProof => proofTarget pbftProof st) = target?
  rcases target? with _ | ⟨newViewNumber, newSeq⟩
  · exact hfiled
  · refine hentered _ _ _ ?_
    split
    · exact hfiled
    · exact hfiled

/-- **The view changes are always filed.** -/
theorem run_filed (crypto : Crypto) (key : PrivateKey) (validators : List Bytes)
    (events : List Event) :
    VcInstanceMap.Filed (run crypto key validators events).vcInstances := by
  refine foldl_files (fun st event => ?_) events _ VcInstanceMap.Filed.nil
  cases event with
  | recv env checkValue now => exact onRecv_files env checkValue now st
  | request value now => exact .of_eq (request_vcInstances value now st)
  | timer currentTime => exact onTimer_files currentTime st
  | txTimeout => exact .of_eq (onTxTimeout_vcInstances st)
  | newViewRepondTimer timer => exact .of_eq (onNewViewRepondTimer_vcInstances timer st)
  | updateValidators validators proof => exact updateValidators_files validators proof st

/-- **A restart keeps the view changes exactly when there was nothing else to keep**: every
instance had an empty prepared set, and its `seq` is what the memory of the new instance
happens to hold. -/
theorem load_saveViewChange_iff {wire : Wire} {validators : List Bytes} {events : List Event}
    (hcarries : wire.Carries (run crypto key validators events).vcInstances)
    (memory : ℤ → ℤ) (now : ℤ) :
    let vcInstances := (run crypto key validators events).vcInstances
    (loadVcInstance wire memory now (some (saveViewChange wire vcInstances)) []).2 =
        vcInstances ↔
      ∀ entry ∈ vcInstances,
        entry.2.seq = memory entry.1 ∧ entry.2.prePreparedEnvSet = default := by
  intro vcInstances
  rw [load_saveViewChange hcarries (run_filed crypto key validators events)]
  have hrestored : ∀ entry ∈ vcInstances,
      (entry.1, entry.2.restored (memory entry.1)) = entry ↔
        entry.2.seq = memory entry.1 ∧ entry.2.prePreparedEnvSet = default := by
    intro entry _
    rw [← restored_eq_iff, Prod.ext_iff, and_iff_right rfl]
  constructor
  · intro heq entry hentry
    have hmap : vcInstances.map (fun entry => (entry.1, entry.2.restored (memory entry.1))) =
        vcInstances.map id := heq.trans (List.map_id _).symm
    exact (hrestored entry hentry).mp (List.map_inj_left.mp hmap entry hentry)
  · intro hall
    refine (List.map_congr_left fun entry hentry => ?_).trans (List.map_id _)
    exact (hrestored entry hentry).mpr (hall entry hentry)

end Kept

/-! ## A view change that is saved -/

namespace Sample

/-- What replica 2 keeps of a VIEW-CHANGE of validator 0. -/
def kept (preparedSet? : Option PbftPreparedSet) : VcInstanceMap :=
  (run Sample.crypto secondKey Sample.validators [(toViewTwo 0 preparedSet?).event]).vcInstances

/-- The bytes of that VIEW-CHANGE without a prepared set, and the text that is stored. -/
def keptWire : Wire :=
  let envBytes : Bytes := [10, 28, 16, 5, 66, 22, 10, 20, 10, 10, 16, 3, 50, 4, 8, 2, 16, 1, 72, 1,
    18, 6, 10, 1, 10, 18, 1, 10, 72, 1, 18, 6, 10, 1, 10, 18, 1, 10]
  let viewChangeBytes : Bytes := [8, 2, 16, 1]
  let text : Bytes := ("[\x7b\"end_time\":0,\"last_newview_time\":0,\"last_propose_time\":1," ++
    "\"msg_buffer\":[\"0a1c100542160a140a0a1003320408021001480112060a010a12010a" ++
    "480112060a010a12010a\"],\"new_view\":\"\",\"new_view_round\":1,\"sequence\":2," ++
    "\"start_time\":1,\"view_change_msg\":\"\",\"view_change_round\":0," ++
    "\"view_changes\":[\"08021001\"],\"view_number\":2\x7d]").toUTF8.toList
  let messages : Wire := {
    toFastString := fun _ => text
    fromString := fun _ => none
    -- an envelope without fields has no bytes
    serializeEnv := fun env => if env.pbft.type = .preprepare then [] else envBytes
    parseEnv := fun bytes => if bytes = [] then some default
      else if bytes = envBytes then some (toViewTwo 0 none).env else none
    serializeViewChange := fun _ => viewChangeBytes
    parseViewChange := fun bytes =>
      if bytes = viewChangeBytes then some (toViewTwo 0 none).viewChange else none }
  { messages with
    fromString := fun bytes => if bytes = text then some (vcItems messages (kept none)) else none }

theorem keptWire_carries : keptWire.Carries (kept none) where
  json := if_pos rfl
  env := by
    intro entry hentry env henv
    obtain rfl := List.mem_singleton.mp hentry
    rcases List.mem_cons.mp henv with rfl | henv
    · rfl
    · obtain rfl := List.mem_singleton.mp henv
      rfl
  viewChangeMsg := by
    intro entry hentry env henv
    obtain rfl := List.mem_singleton.mp hentry
    cases henv
  viewChange := by
    intro entry hentry viewChange hviewChange
    obtain rfl := List.mem_singleton.mp hentry
    obtain rfl := List.mem_singleton.mp hviewChange
    rfl

end Sample

open Sample in
/-- With the old `seq` in the memory of the new instance nothing is lost. -/
theorem load_saveViewChange_kept :
    keptWire.Carries (kept none) ∧
      (loadVcInstance keptWire (fun _ => 1) 5 (some (saveViewChange keptWire (kept none))) []).2 =
        kept none := by
  refine ⟨keptWire_carries, (load_saveViewChange_iff keptWire_carries (fun _ => 1) 5).mpr ?_⟩
  intro entry hentry
  obtain rfl := List.mem_singleton.mp hentry
  exact ⟨rfl, rfl⟩

/-- Whatever is read, no prepared set comes back. -/
theorem prePreparedEnvSet_loadVcInstance (wire : Wire) (memory : ℤ → ℤ) (now : ℤ)
    (stored : Option Bytes) :
    ∀ entry ∈ (loadVcInstance wire memory now stored []).2,
      entry.2.prePreparedEnvSet = default := by
  have hitem : ∀ (vcInstances : VcInstanceMap) (item : Json),
      (∀ entry ∈ vcInstances, entry.2.prePreparedEnvSet = default) →
      ∀ entry ∈ loadItem wire memory now vcInstances item,
        entry.2.prePreparedEnvSet = default := by
    intro vcInstances item hold entry hentry
    rcases OrderedMap.mem_insert.mp hentry with rfl | ⟨hmem, -⟩
    · show ((vcInstances.lookup _).getD _).prePreparedEnvSet = default
      cases hlookup : vcInstances.lookup (item.get "sequence").asInt64 with
      | none => rfl
      | some found => exact hold _ (OrderedMap.mem_of_lookup hlookup)
    · exact hold entry hmem
  have hloop : ∀ (items : List Json) (vcInstances : VcInstanceMap),
      (∀ entry ∈ vcInstances, entry.2.prePreparedEnvSet = default) →
      ∀ entry ∈ items.foldl (loadItem wire memory now) vcInstances,
        entry.2.prePreparedEnvSet = default := by
    intro items
    induction items with
    | nil => exact fun _ => id
    | cons item items ih => exact fun vcInstances hold => ih _ (hitem vcInstances item hold)
  unfold loadVcInstance
  split
  · simp
  · split
    · simp
    · exact hloop _ [] (by simp)

open Sample in
/-- The VIEW-CHANGE of validator 0 has a prepared set.  After a restart replica 2 has lost it,
whatever the libraries do, and its NEW-VIEW would propose nothing. -/
theorem load_saveViewChange_loses :
    ¬ ∃ (wire : Wire) (memory : ℤ → ℤ) (now : ℤ),
      (loadVcInstance wire memory now
        (some (saveViewChange wire (kept (some (setAt 0 [7]))))) []).2 =
          kept (some (setAt 0 [7])) := by
  rintro ⟨wire, memory, now, heq⟩
  have hdefault := prePreparedEnvSet_loadVcInstance wire memory now
    (some (saveViewChange wire (kept (some (setAt 0 [7])))))
  rw [heq] at hdefault
  have hset := hdefault _ (List.mem_singleton.mpr rfl)
  have hsome : (setAt 0 [7]).prePrepare?.isSome = true := rfl
  have hnone : (setAt 0 [7]).prePrepare? = none := congrArg PbftPreparedSet.prePrepare? hset
  rw [hnone] at hsome
  cases hsome

end CegChain
