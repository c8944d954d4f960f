import MomRpc.Broker.Factories
import MomRpc.Broker.Theorems.Builder

namespace MomRpc

open Text

namespace TransportKind

def schemes : TransportKind → List String
  | .memory  => ["memory://"]
  | .rumqttc => ["mqtt://", "tcp://"]
  | .lapin   => ["amqp://"]
  | .dustDds => ["dds:"]
  | .redis   => ["redis://"]

def HasScheme (kind : TransportKind) (uri : String) : Prop :=
  ∃ scheme ∈ kind.schemes, scheme.toList <+: uri.toList

instance {kind : TransportKind} {uri : String} : Decidable (kind.HasScheme uri) :=
  inferInstanceAs (Decidable (∃ _ ∈ _, _))

-- The text is `host` or `host:port`.
def HostPort (uri : String) : Prop :=
  uri ≠ "" ∧ (':' ∉ uri.toList ∨ ∃ host port n,
    uri.toList = host ++ ':' :: port ∧ ':' ∉ host ∧ parseU16 port = .ok n)

-- The text is `dds:<domain>`.
def Domain (uri : String) (n : UInt16) : Prop :=
  ∃ domain, uri.toList = "dds:".toList ++ domain ∧ parseU16 domain = .ok n

-- The forms in which the URIs of each transport are documented to be written.
def Documented : TransportKind → String → Prop
  | .rumqttc, uri => rumqttc.HasScheme uri ∨ (∀ kind, ¬HasScheme kind uri) ∧ HostPort uri
  | .dustDds, uri => uri = "" ∨ ∃ n, Domain uri n
  | kind, uri     => kind.HasScheme uri

variable {kind kind' : TransportKind} {uri : String} {n : UInt16}

-- No scheme begins with another one.
theorem hasScheme_unique (h : kind.HasScheme uri) (h' : kind'.HasScheme uri) : kind = kind' := by
  obtain ⟨p, hp, hp'⟩ := h
  obtain ⟨q, hq, hq'⟩ := h'
  have clash := List.prefix_or_prefix_of_prefix hp' hq'
  clear hp' hq'
  revert p q
  cases kind <;> cases kind' <;> simp [schemes]

theorem not_hasScheme_empty : ¬kind.HasScheme "" := by
  cases kind <;> simp [HasScheme, schemes]

theorem Domain.hasScheme (h : Domain uri n) : dustDds.HasScheme uri :=
  have ⟨domain, he, _⟩ := h
  ⟨"dds:", by simp [schemes], domain, he.symm⟩

theorem Documented.cases (h : kind.Documented uri) :
    kind.HasScheme uri ∨ (kind = .rumqttc ∧ uri ≠ "" ∧ ∀ kind, ¬HasScheme kind uri) ∨
      kind = .dustDds ∧ uri = "" := by
  cases kind
  case memory | lapin | redis => exact .inl h
  case rumqttc =>
    rcases h with h | ⟨schemeless, ne, _⟩
    · exact .inl h
    · exact .inr <| .inl ⟨rfl, ne, schemeless⟩
  case dustDds =>
    rcases h with h | ⟨n, h⟩
    · exact .inr <| .inr ⟨rfl, h⟩
    · exact .inl h.hasScheme

-- A URI is written in the form of at most one transport.
theorem documented_unique (h : kind.Documented uri) (h' : kind'.Documented uri) : kind = kind' := by
  rcases h.cases with h | ⟨rfl, ne, none⟩ | ⟨rfl, rfl⟩ <;>
    rcases h'.cases with h' | ⟨rfl, ne', none'⟩ | ⟨rfl, he'⟩
  · exact hasScheme_unique h h'
  · exact absurd h <| none' kind
  · exact absurd (he' ▸ h) not_hasScheme_empty
  · exact absurd h' <| none kind'
  · rfl
  · exact absurd he' ne
  · exact absurd h' not_hasScheme_empty
  · exact absurd rfl ne'
  · rfl

theorem parseU16_slash {cs : List Char} : parseU16 ('/' :: cs) ≠ .ok n := by
  intro h
  unfold parseU16 at h
  cases hp : parseUnsigned UInt16.size ('/' :: cs) <;> rw [hp] at h <;> cases h
  rcases mem_of_parseUnsigned hp (List.mem_cons_self ..) with h | h <;> simp at h

theorem HostPort.parsed {host port : List Char} (h : HostPort uri)
    (he : uri.toList = host ++ ':' :: port) (hh : ':' ∉ host) : ∃ n, parseU16 port = .ok n := by
  rcases h with ⟨-, none | ⟨host', port', n, he', hh', parsed⟩⟩
  · simp [he] at none
  · have eq := splitOnce_eq_some_iff.mpr ⟨he, hh⟩
    rw [splitOnce_eq_some_iff.mpr ⟨he', hh'⟩] at eq
    cases eq
    exact ⟨n, parsed⟩

theorem schemes_cases {scheme : String} (h : scheme ∈ kind.schemes) :
    (kind = .dustDds ∧ scheme = "dds:") ∨
      ∃ host, scheme.toList = host ++ [':', '/', '/'] ∧ ':' ∉ host := by
  cases kind <;> simp only [schemes, List.mem_cons, List.not_mem_nil, or_false] at h
  case memory  => exact .inr ⟨"memory".toList, by simp [h]⟩
  case lapin   => exact .inr ⟨"amqp".toList, by simp [h]⟩
  case redis   => exact .inr ⟨"redis".toList, by simp [h]⟩
  case dustDds => exact .inl ⟨rfl, h⟩
  case rumqttc =>
    rcases h with h | h
    · exact .inr ⟨"mqtt".toList, by simp [h]⟩
    · exact .inr ⟨"tcp".toList, by simp [h]⟩

-- The only scheme which a text `host:port` can begin with is the one that has no slashes.
theorem HostPort.domain (h : HostPort uri) (hs : kind.HasScheme uri) : ∃ n, Domain uri n := by
  obtain ⟨scheme, hm, rest, he⟩ := hs
  rcases schemes_cases hm with ⟨rfl, rfl⟩ | ⟨host, hs, hh⟩
  · have eq : uri.toList = "dds".toList ++ ':' :: rest := he.symm
    obtain ⟨n, parsed⟩ := h.parsed eq (by simp)
    exact ⟨n, rest, he.symm, parsed⟩
  · have eq : uri.toList = host ++ ':' :: '/' :: '/' :: rest := by simp [← he, hs]
    obtain ⟨n, parsed⟩ := h.parsed eq hh
    exact absurd parsed parseU16_slash

end TransportKind

namespace Factories

open TransportKind

variable {kind : TransportKind} {uri : String} {n : UInt16} {config : TransportConfig}
  {clients : Clients} {options : MqttOptions} {features : TransportKind → Bool}

theorem isPrefixOf?_eq_none_iff {xs ys : List Char} :
    xs.isPrefixOf? ys = none ↔ ∀ rest, ys ≠ xs ++ rest := by
  simp [Option.eq_none_iff_forall_ne_some, eq_comm]

theorem parseDomainId_eq_iff : parseDomainId (some uri) = .ok n ↔ Domain uri n := by
  simp only [parseDomainId, Domain]
  split
  case h_1 none =>
    simpa using fun domain he => absurd he <| isPrefixOf?_eq_none_iff.mp none domain
  case h_2 domain eq =>
    rw [List.isPrefixOf?_eq_some_iff_append_eq] at eq
    simp only [← eq, List.append_cancel_left_eq, exists_eq_left']
    cases parseU16 domain <;> simp [Except.mapError]

theorem domain_unique {n' : UInt16} (h : Domain uri n) (h' : Domain uri n') : n = n' :=
  Except.ok.inj <| (parseDomainId_eq_iff.mpr h).symm.trans <| parseDomainId_eq_iff.mpr h'

theorem createDustDds_eq_iff : createDustDds clients config = .ok () ↔
    (config.uri = "" ∧ clients.createParticipant 0 = .ok ()) ∨
      ∃ n, Domain config.uri n ∧ clients.createParticipant n = .ok () := by
  have created (n : UInt16) (f : String → RpcError) :
      (clients.createParticipant n).mapError f = .ok () ↔ clients.createParticipant n = .ok () := by
    cases clients.createParticipant n <;> simp [Except.mapError]
  by_cases he : config.uri = ""
  case pos =>
    have none (n : UInt16) : ¬Domain "" n := fun h => not_hasScheme_empty h.hasScheme
    simp only [createDustDds, he, ↓reduceIte, parseDomainId, none, false_and, exists_false,
      or_false, true_and]
    exact created ..
  case neg =>
    simp only [createDustDds, he, ↓reduceIte, false_and, false_or]
    cases hp : parseDomainId (some config.uri)
    case error e =>
      have none (n : UInt16) : ¬Domain config.uri n := fun h => by
        cases hp.symm.trans <| parseDomainId_eq_iff.mpr h
      simp [bind, Except.bind, none]
    case ok n =>
      constructor
      case mp  => exact fun h => ⟨n, parseDomainId_eq_iff.mp hp, (created n _).mp h⟩
      case mpr =>
        rintro ⟨n', hd, hc⟩
        cases hp.symm.trans <| parseDomainId_eq_iff.mpr hd
        exact created n _ |>.mpr hc

-- The prefix is taken off, and the rest has to be `host` or `host:port`.
theorem createMqttClient_accepts (h : createMqttClient config = .ok options) :
    rumqttc.HasScheme config.uri ∨ HostPort config.uri := by
  simp only [createMqttClient] at h
  split at h <;> try cases h
  case isFalse ne =>
    by_contra none
    rw [not_or] at none
    have bare {p : String} (hp : p ∈ rumqttc.schemes) :
        p.toList.isPrefixOf? config.uri.toList = .none :=
      isPrefixOf?_eq_none_iff.mpr fun rest he => none.left ⟨p, hp, rest, he.symm⟩
    rw [bare (p := "mqtt://") (by simp [schemes]), bare (p := "tcp://") (by simp [schemes])] at h
    refine none.right ⟨ne, ?_⟩
    split at h
    case h_1 single => exact .inl <| splitOnce_eq_none_iff.mp single
    case h_2 host port split =>
      split at h <;> cases h
      case h_1 n parsed =>
        have ⟨he, hh⟩ := splitOnce_eq_some_iff.mp split
        exact .inr ⟨host, port, n, he, hh, parsed⟩

-- A URI of DDS is accepted as well: its scheme is taken for a host.
theorem of_rumqttc (mqtt : features .rumqttc) (h : Domain config.uri n) :
    Factories.of features clients .rumqttc config = .ok () := by
  obtain ⟨domain, he, parsed⟩ := h
  have ne : config.uri ≠ "" := by
    intro h
    simp [h] at he
  have split : splitOnce ':' ('d' :: 'd' :: 's' :: ':' :: domain) =
      some (['d', 'd', 's'], domain) :=
    splitOnce_eq_some_iff.mpr ⟨rfl, by simp⟩
  simp [Factories.of, mqtt, createRumqttc, createMqttClient, ne, he, List.isPrefixOf?, split,
    parsed, Except.map]

-- The texts that the MQTT transport accepts are written in its own form, or in the one of DDS.
theorem createMqttClient_documented (h : createMqttClient config = .ok options) :
    rumqttc.Documented config.uri ∨ ∃ n, Domain config.uri n := by
  rcases createMqttClient_accepts h with h | h
  · exact .inl <| .inl h
  · by_cases schemeless : ∀ kind, ¬HasScheme kind config.uri
    · exact .inl <| .inr ⟨schemeless, h⟩
    · obtain ⟨kind, hs⟩ := not_forall_not.mp schemeless
      exact .inr <| h.domain hs

theorem createAmqpConnection_connect (h : createAmqpConnection clients config = .ok ()) :
    clients.connect config.uri = .ok () := by
  by_cases he : config.uri = ""
  case pos =>
    simp [createAmqpConnection, he, throw, throwThe, MonadExceptOf.throw, bind, Except.bind] at h
  case neg =>
    cases hc : clients.connect config.uri
    case error => simp [createAmqpConnection, he, hc, Except.mapError, bind, Except.bind] at h
    case ok    => rfl

theorem createRedis_open (h : createRedis clients config = .ok ()) :
    clients.openClient config.uri = .ok () := by
  by_cases he : config.uri = ""
  case pos => simp [createRedis, he, throw, throwThe, MonadExceptOf.throw, bind, Except.bind] at h
  case neg =>
    cases hc : clients.openClient config.uri
    case error => simp [createRedis, he, hc, Except.mapError, bind, Except.bind] at h
    case ok    => rfl

theorem createRumqttc_documented (h : createRumqttc config = .ok ()) :
    rumqttc.Documented config.uri ∨ ∃ n, Domain config.uri n := by
  cases hc : createMqttClient config
  case error => simp [createRumqttc, hc, Except.map] at h
  case ok    => exact createMqttClient_documented hc

theorem createDustDds_documented (h : createDustDds clients config = .ok ()) :
    dustDds.Documented config.uri :=
  createDustDds_eq_iff.mp h |>.imp And.left fun ⟨n, hd, _⟩ => ⟨n, hd⟩

theorem create_eq_ok_iff {factories : Factories} {t : TransportPtr} (hk : kind ≠ .memory) :
    factories.create kind config = .ok t ↔
      factories kind config = .ok () ∧ t = { kind, base := .from config } := by
  have he : factories.create kind config =
      (factories kind config).map fun _ => { kind, base := .from config } := by
    cases kind <;> first | rfl | exact absurd rfl hk
  rw [he]
  cases factories kind config <;> simp [Except.map, eq_comm]

end Factories

namespace TransportBuilder

open TransportKind

variable {factories : Factories} {self : TransportBuilder} {config : TransportConfig}
  {t : TransportPtr}

-- Without a transport type, `build` settles for the first factory that succeeds.
theorem build_auto (auto : self.transportType = none) (hc : self.config = .ok config)
    (h : self.build factories = .ok t) (hk : t.kind ≠ .memory) :
    factories t.kind config = .ok () ∧
      (t.kind ≠ .dustDds → factories .dustDds config ≠ .ok ()) := by
  have created {kind : TransportKind} (h : factories.create kind config = .ok t)
      (hn : kind ≠ .memory) : t.kind = kind ∧ factories t.kind config = .ok () := by
    obtain ⟨accepted, rfl⟩ := Factories.create_eq_ok_iff hn |>.mp h
    exact ⟨rfl, accepted⟩
  simp only [build, hc, auto, bind, Except.bind] at h
  by_cases first : ∃ t', factories.create .dustDds config = .ok t'
  case pos =>
    obtain ⟨t', eq⟩ := first
    rw [eq] at h
    obtain rfl : t' = t := Except.ok.inj h
    obtain ⟨kind, accepted⟩ := created eq (by simp)
    exact ⟨accepted, fun other => absurd kind other⟩
  case neg =>
    have failed : ∀ t', factories.create .dustDds config ≠ .ok t' := not_exists.mp first
    rw [orElse_of_error failed] at h
    refine ⟨?_, fun _ h => failed _ <| Factories.create_eq_ok_iff (by simp) |>.mpr ⟨h, rfl⟩⟩
    rcases orElse_ok h with h | h
    · exact (created h (by simp)).right
    rcases orElse_ok h with h | h
    · exact (created h (by simp)).right
    rcases orElse_ok h with h | h
    · exact (created h (by simp)).right
    · cases h
      exact absurd rfl hk

theorem build_rumqttc (auto : self.transportType = none) (hc : self.config = .ok config)
    (dds : factories .dustDds config ≠ .ok ()) (mqtt : factories .rumqttc config = .ok ()) :
    self.build factories = .ok { kind := .rumqttc, base := .from config } := by
  have failed (t : TransportPtr) : factories.create .dustDds config ≠ .ok t :=
    fun h => dds <| Factories.create_eq_ok_iff (by simp) |>.mp h |>.left
  have created := Factories.create_eq_ok_iff (by simp) |>.mpr ⟨mqtt, rfl⟩
  simp only [build, hc, auto, bind, Except.bind]
  rw [orElse_of_error failed, created]
  rfl

-- A transport other than the one in memory is only built if the URI is written in its form, and not
-- in the one of another transport.
def RespectsScheme (factories : Factories) (self : TransportBuilder) : Prop :=
  ∀ uri t, self.uri = some uri → self.build factories = .ok t → t.kind ≠ .memory →
    t.kind.Documented uri ∧ ∀ kind ≠ t.kind, ¬kind.Documented uri

section

variable {features : TransportKind → Bool} {clients : Clients}

theorem accepts_documented
    (lapin : ∀ uri, clients.connect uri = .ok () → TransportKind.lapin.HasScheme uri)
    (redis : ∀ uri, clients.openClient uri = .ok () → TransportKind.redis.HasScheme uri)
    {kind : TransportKind} (hk : kind ≠ .memory)
    (h : Factories.of features clients kind config = .ok ()) :
    features kind ∧ (kind.Documented config.uri ∨ kind = .rumqttc ∧ ∃ n, Domain config.uri n) := by
  cases kind <;> try exact absurd rfl hk
  all_goals
    simp only [Factories.of] at h
    split at h <;> try cases h
    refine ⟨‹_›, ?_⟩
  case rumqttc => exact Factories.createRumqttc_documented h |>.imp_right fun h => ⟨rfl, h⟩
  case lapin   => exact .inl <| lapin _ <| Factories.createAmqpConnection_connect h
  case redis   => exact .inl <| redis _ <| Factories.createRedis_open h
  case dustDds => exact .inl <| Factories.createDustDds_documented h

theorem build_respects_scheme (features : TransportKind → Bool) (clients : Clients)
    (self : TransportBuilder) (auto : self.transportType = none)
    (lapin : ∀ uri, clients.connect uri = .ok () → TransportKind.lapin.HasScheme uri)
    (redis : ∀ uri, clients.openClient uri = .ok () → TransportKind.redis.HasScheme uri) :
    self.RespectsScheme (.of features clients) ↔
      ∀ config n, self.config = .ok config → Domain config.uri n → features .rumqttc →
        features .dustDds ∧ clients.createParticipant n = .ok () := by
  constructor
  case mp =>
    intro respects config n hc domain mqtt
    by_contra missed
    have dds : Factories.of features clients .dustDds config ≠ .ok () := by
      intro h
      obtain ⟨enabled, -⟩ := accepts_documented lapin redis (by simp) h
      simp only [Factories.of, enabled, ↓reduceIte] at h
      rcases Factories.createDustDds_eq_iff.mp h with ⟨empty, -⟩ | ⟨n', domain', created⟩
      · exact not_hasScheme_empty <| empty ▸ domain.hasScheme
      · cases Factories.domain_unique domain domain'
        exact missed ⟨enabled, created⟩
    have built := build_rumqttc auto hc dds <| Factories.of_rumqttc mqtt domain
    have ⟨_, other⟩ := respects config.uri _ (config_uri hc) built (by simp)
    exact other .dustDds (by simp) <| .inr ⟨n, domain⟩
  case mpr =>
    intro domains uri t hu built hk
    obtain ⟨config, hc, -⟩ := build_base built
    obtain rfl := Option.some.inj <| hu.symm.trans <| config_uri hc
    obtain ⟨accepted, unclaimed⟩ := build_auto auto hc built hk
    suffices h : t.kind.Documented config.uri from
      ⟨h, fun kind other h' => other <| documented_unique h' h⟩
    obtain ⟨enabled, h | ⟨he, n, domain⟩⟩ := accepts_documented lapin redis hk accepted
    · exact h
    · have ⟨dds, created⟩ := domains config n hc domain (he ▸ enabled)
      refine absurd ?_ <| unclaimed (by simp [he])
      simpa [Factories.of, dds] using Factories.createDustDds_eq_iff.mpr (.inr ⟨n, domain, created⟩)

end

-- Client libraries that look at nothing but the scheme.
def schemeClients : Clients where
  createParticipant _ := .ok ()
  connect uri := if TransportKind.lapin.HasScheme uri then .ok () else .error "scheme"
  createChannel := .ok ()
  openClient uri := if TransportKind.redis.HasScheme uri then .ok () else .error "scheme"
  multiplexedAsyncConnection := .ok ()
  asyncPubsub := .ok ()

def brokerless (kind : TransportKind) : Bool :=
  kind ≠ .dustDds

theorem build_respects_scheme_mqtt :
    RespectsScheme (.of brokerless schemeClients)
      (TransportBuilder.new [.uri "mqtt://localhost:1883", .nodeId "n", .clientMode]) := by
  refine build_respects_scheme brokerless schemeClients _ rfl (fun uri h => ?_) (fun uri h => ?_)
    |>.mpr fun config n hc domain _ => ?_
  · by_contra other
    simp [schemeClients, other] at h
  · by_contra other
    simp [schemeClients, other] at h
  · cases hc
    obtain ⟨_, he, _⟩ := domain
    simp at he

-- DDS is not enabled, so MQTT takes its URI for the port 45 of the host `dds`.
theorem domain_is_taken_for_host :
    ∃ t, (TransportBuilder.new [.uri "dds:45", .nodeId "n", .clientMode]).build
        (.of brokerless schemeClients) = .ok t ∧ t.kind = .rumqttc ∧
      TransportKind.dustDds.Documented "dds:45" ∧
      ¬RespectsScheme (.of brokerless schemeClients)
        (TransportBuilder.new [.uri "dds:45", .nodeId "n", .clientMode]) := by
  have domain : Domain "dds:45" 45 := ⟨['4', '5'], by simp, rfl⟩
  have hc : (TransportBuilder.new [.uri "dds:45", .nodeId "n", .clientMode]).config = .ok _ := rfl
  have dds (config : TransportConfig) :
      Factories.of brokerless schemeClients .dustDds config ≠ .ok () := by
    simp [Factories.of, brokerless]
  have built := build_rumqttc rfl hc (dds _) <| Factories.of_rumqttc rfl domain
  refine ⟨_, built, rfl, .inr ⟨45, domain⟩, fun respects => ?_⟩
  exact respects _ _ rfl built (by simp) |>.right .dustDds (by simp) <| .inr ⟨45, domain⟩

end TransportBuilder

end MomRpc
