import MomRpc.Broker.Builder

namespace MomRpc

namespace TransportBuilder

variable {factories : Factories} {self : TransportBuilder} {transport : TransportPtr}
  {config : TransportConfig}

theorem create_base {kind : TransportKind} (h : factories.create kind config = .ok transport) :
    transport.base = .from config := by
  cases kind
  case memory => cases h; rfl
  all_goals
    simp only [Factories.create] at h
    generalize factories _ config = created at h
    cases created <;> cases h
    rfl

theorem orElse_ok {ε α : Type} {x y : Except ε α} {a : α} (h : (x <|> y) = .ok a) :
    x = .ok a ∨ y = .ok a := by
  cases x
  case error => exact .inr h
  case ok    => exact .inl h

theorem orElse_of_error {ε α : Type} {x y : Except ε α} (h : ∀ a, x ≠ .ok a) : (x <|> y) = y := by
  cases x
  case error => rfl
  case ok a  => exact absurd rfl (h a)

theorem config_uri (h : self.config = .ok config) : self.uri = some config.uri := by
  unfold TransportBuilder.config at h
  repeat' split at h
  all_goals cases h <;> assumption

theorem build_base (h : self.build factories = .ok transport) :
    ∃ config, self.config = .ok config ∧ transport.base = .from config := by
  cases hc : self.config
  case error => simp [build, hc, bind, Except.bind] at h
  case ok config =>
    refine ⟨config, rfl, ?_⟩
    replace h : _ = Except.ok transport := h
    simp only [build, hc, bind, Except.bind] at h
    split at h
    case h_6 => cases h
    case h_7 =>
      rcases orElse_ok h with h | h
      · exact create_base h
      rcases orElse_ok h with h | h
      · exact create_base h
      rcases orElse_ok h with h | h
      · exact create_base h
      rcases orElse_ok h with h | h <;> exact create_base h
    all_goals exact create_base h

-- What passes the validation. A name that has not been set explicitly is that of a sugar mode.
structure Valid (self : TransportBuilder) (config : TransportConfig) : Prop where
  nodeId        : self.nodeId = some config.nodeId
  requestQueue  : config.requestQueue = self.requestQueue ∨
    (self.requestQueue = none ∧ config.requestQueue = some (requestsName config.nodeId))
  responseQueue : config.responseQueue = self.responseQueue ∨
    (self.responseQueue = none ∧ config.responseQueue = some (responsesName config.nodeId))
  serves        : (RpcBrokerBuilder.mode config.mode).serves = config.requestQueue.isSome
  requests      : (RpcBrokerBuilder.mode config.mode).requests = config.responseQueue.isSome

theorem queues_cases (nodeId : String)
    (h : ¬(self.sugarCount > 0 ∧ (self.requestQueue.isSome ∨ self.responseQueue.isSome))) :
    ((self.queues nodeId).1 = self.requestQueue ∨
      (self.requestQueue = none ∧ (self.queues nodeId).1 = some (requestsName nodeId))) ∧
    ((self.queues nodeId).2 = self.responseQueue ∨
      (self.responseQueue = none ∧ (self.queues nodeId).2 = some (responsesName nodeId))) := by
  have sugar (h' : self.sugarCount > 0) : self.requestQueue = none ∧ self.responseQueue = none := by
    simpa [h', not_or] using h
  simp only [queues]
  split
  case isTrue hm =>
    have ⟨_, hr⟩ := sugar <| by simp [sugarCount, hm]
    exact ⟨.inl rfl, .inr ⟨hr, rfl⟩⟩
  split
  case isTrue hm =>
    have ⟨hr, _⟩ := sugar <| by simp [sugarCount, hm]
    exact ⟨.inr ⟨hr, rfl⟩, .inl rfl⟩
  split
  case isTrue hm =>
    have ⟨hq, hr⟩ := sugar <| by simp [sugarCount, hm]
    exact ⟨.inr ⟨hq, rfl⟩, .inr ⟨hr, rfl⟩⟩
  case isFalse => exact ⟨.inl rfl, .inl rfl⟩

theorem config_valid (h : self.config = .ok config) : self.Valid config := by
  simp only [TransportBuilder.config] at h
  split at h <;> try cases h
  case _ uri nodeId _ hn =>
    split at h <;> try cases h
    split at h <;> try cases h
    case _ explicit =>
      have ⟨request, response⟩ := queues_cases nodeId explicit
      split at h <;> cases h <;> simp only [*] at request response
      all_goals exact ⟨hn, request, response, rfl, rfl⟩

-- A name that has not been set explicitly is as it should be.
theorem Valid.named_iff (valid : self.Valid config) :
    (∀ n queue, self.nodeId = some n →
      (self.requestQueue = some queue → queue = requestsName n) ∧
      (self.responseQueue = some queue → queue = responsesName n)) ↔
      (∀ queue, config.requestQueue = some queue → queue = requestsName config.nodeId) ∧
        ∀ queue, config.responseQueue = some queue → queue = responsesName config.nodeId := by
  obtain ⟨nodeId, request, response, _, _⟩ := valid
  constructor
  case mp =>
    intro h
    constructor <;> intro queue hq
    · rcases request with he | ⟨_, he⟩
      · exact (h _ queue nodeId).left <| he ▸ hq
      · exact Option.some.inj <| hq.symm.trans he
    · rcases response with he | ⟨_, he⟩
      · exact (h _ queue nodeId).right <| he ▸ hq
      · exact Option.some.inj <| hq.symm.trans he
  case mpr =>
    rintro ⟨requestName, responseName⟩ n queue hn
    obtain rfl := Option.some.inj <| nodeId.symm.trans hn
    constructor <;> intro hq
    · rcases request with he | ⟨none, _⟩
      · exact requestName queue <| he.trans hq
      · cases none.symm.trans hq
    · rcases response with he | ⟨none, _⟩
      · exact responseName queue <| he.trans hq
      · cases none.symm.trans hq

end TransportBuilder

namespace RpcBrokerBuilder

theorem foldl_same (self : RpcBrokerBuilder) (setters : List Setter)
    (plain : ∀ id, .nodeId id ∉ setters) :
    (setters.foldl set self).nodeId = self.nodeId ∧
      (setters.foldl set self).transport = self.transport := by
  induction setters generalizing self
  case nil => exact ⟨rfl, rfl⟩
  case cons setter setters ih =>
    have ⟨nodeId, transport⟩ := ih (self.set setter) fun id =>
      mt (List.mem_cons_of_mem _) (plain id)
    refine ⟨nodeId.trans ?_, transport.trans ?_⟩ <;> cases setter
    case refine_1.nodeId id => exact absurd (List.mem_cons_self ..) (plain id)
    all_goals rfl

-- Without an override, a broker has the id of its transport.
theorem build_nodeId (transport : TransportPtr) (setters : List Setter)
    (plain : ∀ id, .nodeId id ∉ setters) :
    (new transport setters).build.nodeId = transport.base.transportId ∧
      (new transport setters).build.mode = mode transport.base.mode := by
  have ⟨nodeId, transport⟩ := foldl_same { transport } setters plain
  simp [build, new, nodeId, transport]

end RpcBrokerBuilder

end MomRpc
