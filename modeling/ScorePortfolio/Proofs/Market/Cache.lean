import ScorePortfolio.Evaluation.Request
import ScorePortfolio.Market.TableClient
import ScorePortfolio.Proofs.Entries
import ScorePortfolio.Proofs.Traversal

/-!
# Kept histories

A cache holds nothing but the histories of the market.  A query that reads from it has the answer of
one that does not, and keeps it so.  In a market that is asked many times the cache consists, after
each request, of the histories of what has been asked for so far: whole ones, whatever the moments
of the requests were, and none where a history cannot be built.
-/

namespace ScorePortfolio.Market

variable {α : Type} [Quantity α] {m : Market α} {cache : Cache α}

/-- Every history in the cache is that of its field and symbol. -/
def Holds (m : Market α) (cache : Cache α) : Prop :=
  ∀ e ∈ cache, m.history e.1.1 ⟨e.1.2⟩ = .ok e.2

theorem holds_nil (m : Market α) : m.Holds [] := nofun

/-- What the check rejects has no history, for the same reason. -/
theorem history_of_check {field : String} {asset : Asset} {e : ClientError}
    (h : m.check field asset = .error e) : m.history field asset = .error e := by
  rw [check] at h
  rw [history]
  cases hlabel : m.labels.lookup asset.symbol with
  | none => simpa [hlabel] using h
  | some label =>
    cases hitems : m.items? field with
    | none => simpa [hlabel, hitems] using h
    | some items => simp [hlabel, hitems] at h

namespace Holds

variable (h : m.Holds cache)

include h

/-- A cached history is the history. -/
theorem fst_historyCached (field : String) (asset : Asset) :
    (m.historyCached cache field asset).1 = m.history field asset := by
  rw [historyCached]
  split
  · next hcheck => exact (history_of_check hcheck).symm
  split
  · next hkept => exact (h _ (Entries.mem_of_lookup hkept)).symm
  · split <;> exact Eq.symm ‹_›

/-- What a history leaves in the cache is what the market gives. -/
theorem snd_historyCached (field : String) (asset : Asset) :
    m.Holds (m.historyCached cache field asset).2 := by
  rw [historyCached]
  split
  · exact h
  split
  · exact h
  split
  · next hfound => exact List.forall_mem_cons.mpr ⟨hfound, h⟩
  · exact h

/-- The cache changes no answer. -/
theorem fst_queryCached (asset : Asset) (t : Option Instant) (field : Option String) :
    (m.queryCached cache asset t field).1 = m.query asset t field := by
  rw [queryCached, query, ← h.fst_historyCached]
  rfl

theorem snd_queryCached (asset : Asset) (t : Option Instant) (field : Option String) :
    m.Holds (m.queryCached cache asset t field).2 :=
  h.snd_historyCached _ _

end Holds

/-- The client that reads from a cache. -/
def cachedClient (m : Market α) (cache : Cache α) : Client α :=
  ⟨m.assets, m.asset, fun asset t field ↦ (m.queryCached cache asset t field).1⟩

theorem Holds.cachedClient_eq (h : m.Holds cache) : m.cachedClient cache = m.client := by
  rw [cachedClient, client, Client.mk.injEq]
  exact ⟨rfl, rfl, funext fun _ ↦ funext fun _ ↦ funext fun _ ↦ h.fst_queryCached _ _ _⟩

/-! ## Requests one after the other -/

/-- The answer to a request with the histories kept so far, and the histories kept afterwards. -/
def serve (m : Market α) (cache : Cache α) (r : Request) :
    Except ClientError (Series α) × Cache α :=
  m.queryCached cache r.asset r.asOf r.field

/-- The answers to requests in turn, each with the histories kept after it. -/
def serveAll (m : Market α) (cache : Cache α) :
    List Request → List (Except ClientError (Series α) × Cache α)
  | [] => []
  | r :: rest => m.serve cache r :: m.serveAll (m.serve cache r).2 rest

/-- The field that a request reads, with the symbol of its asset. -/
def keyOf (m : Market α) (r : Request) : String × String := (m.chosenField r.field, r.asset.symbol)

/-- The cache consists of the histories of the given keys, each once, as far as there is one. -/
structure Keeps (m : Market α) (keys : List (String × String)) (cache : Cache α) : Prop where
  nodup : (cache.map (·.1)).Nodup
  mem_iff : ∀ {key : String × String} {s : Series α},
    (key, s) ∈ cache ↔ key ∈ keys ∧ m.history key.1 ⟨key.2⟩ = .ok s

variable {keys : List (String × String)}

theorem keeps_nil (m : Market α) : m.Keeps [] [] := ⟨List.nodup_nil, by simp⟩

namespace Keeps

theorem lookup_eq_some (h : m.Keeps keys cache) {key : String × String} {s : Series α} :
    cache.lookup key = some s ↔ key ∈ keys ∧ m.history key.1 ⟨key.2⟩ = .ok s := by
  rw [← h.mem_iff]
  exact ⟨Entries.mem_of_lookup, Entries.lookup_of_mem h.nodup⟩

/-- A key whose history is there already, or cannot be built, leaves the cache as it is. -/
theorem append_of_mem (h : m.Keeps keys cache) {key : String × String}
    (hkey : ∀ s, m.history key.1 ⟨key.2⟩ = .ok s → key ∈ keys) : m.Keeps (keys ++ [key]) cache := by
  refine ⟨h.nodup, ?_⟩
  intro key' s
  rw [h.mem_iff, List.mem_append, List.mem_singleton, or_and_right]
  refine ⟨.inl, ?_⟩
  rintro (hmem | ⟨rfl, hs⟩)
  · exact hmem
  · exact ⟨hkey s hs, hs⟩

/-- The history of a new key is added. -/
theorem append_of_history (h : m.Keeps keys cache) {key : String × String} {s : Series α}
    (hnone : cache.lookup key = none) (hs : m.history key.1 ⟨key.2⟩ = .ok s) :
    m.Keeps (keys ++ [key]) ((key, s) :: cache) := by
  have hnew : key ∉ cache.map (·.1) := by
    rw [← Entries.isSome_lookup, hnone]
    exact Bool.false_ne_true
  refine ⟨List.nodup_cons.mpr ⟨hnew, h.nodup⟩, ?_⟩
  intro key' s'
  rw [List.mem_cons, Prod.mk.injEq, h.mem_iff, List.mem_append, List.mem_singleton, or_and_right,
    or_comm]
  refine or_congr_right ?_
  constructor
  · rintro ⟨rfl, rfl⟩
    exact ⟨rfl, hs⟩
  · rintro ⟨rfl, hs'⟩
    exact ⟨rfl, Except.ok.inj (hs'.symm.trans hs)⟩

/-- A request adds its key. -/
theorem serve (h : m.Keeps keys cache) (r : Request) :
    m.Keeps (keys ++ [m.keyOf r]) (m.serve cache r).2 := by
  show m.Keeps (keys ++ [m.keyOf r])
    (m.historyCached cache (m.chosenField r.field) r.asset).2
  rw [historyCached]
  split
  · next e hcheck =>
    refine h.append_of_mem fun s hs ↦ ?_
    cases (history_of_check hcheck).symm.trans hs
  split
  · next s hkept => exact h.append_of_mem fun _ _ ↦ (h.lookup_eq_some.mp hkept).1
  next hnone =>
  split
  · next s hs => exact h.append_of_history hnone hs
  · next e herror =>
    refine h.append_of_mem fun s hs ↦ ?_
    cases herror.symm.trans hs

/-- After each of several requests, the keys are those of the requests so far. -/
theorem serveAll (h : m.Keeps keys cache) {requests : List Request} {k : ℕ}
    {step : Except ClientError (Series α) × Cache α}
    (hstep : (m.serveAll cache requests)[k]? = some step) :
    m.Keeps (keys ++ (requests.take (k + 1)).map m.keyOf) step.2 := by
  induction requests generalizing cache keys k with
  | nil => cases hstep
  | cons r rest ih =>
    cases k with
    | zero =>
      obtain rfl := Option.some.inj hstep
      exact h.serve r
    | succ k =>
      have hrest := ih (h.serve r) hstep
      rwa [List.append_assoc] at hrest

end Keeps

theorem Holds.fst_serve (h : m.Holds cache) (r : Request) :
    (m.serve cache r).1 = m.query r.asset r.asOf r.field :=
  h.fst_queryCached _ _ _

theorem Holds.snd_serve (h : m.Holds cache) (r : Request) : m.Holds (m.serve cache r).2 :=
  h.snd_queryCached _ _ _

/-- Served in any order, from any cache that holds what the market gives, requests are answered as
by the market itself. -/
theorem Holds.fst_serveAll (h : m.Holds cache) (requests : List Request) :
    (m.serveAll cache requests).map (·.1) =
      requests.map fun r ↦ m.query r.asset r.asOf r.field := by
  induction requests generalizing cache with
  | nil => rfl
  | cons r rest ih =>
    rw [Market.serveAll, List.map_cons, List.map_cons, h.fst_serve r, ih (h.snd_serve r)]

/-- Whatever a market has been asked before, it answers as if it were asked for the first time; and
after each request it has kept the whole history of each field and symbol asked for so far that has
one, once, and nothing else. -/
theorem serveAll_transparent (m : Market α) (requests : List Request) :
    (m.serveAll [] requests).map (·.1) = requests.map (fun r ↦ (m.serve [] r).1) ∧
      ∀ k step, (m.serveAll [] requests)[k]? = some step → (step.2.map (·.1)).Nodup ∧
        ∀ field symbol s, ((field, symbol), s) ∈ step.2 ↔ m.history field ⟨symbol⟩ = .ok s ∧
          ∃ r ∈ requests.take (k + 1), m.chosenField r.field = field ∧ r.asset.symbol = symbol := by
  constructor
  · rw [m.holds_nil.fst_serveAll]
    exact List.map_congr_left fun r _ ↦ (m.holds_nil.fst_serve r).symm
  · intro k step hstep
    have hkeeps : m.Keeps ((requests.take (k + 1)).map m.keyOf) step.2 := by
      simpa using m.keeps_nil.serveAll hstep
    refine ⟨hkeeps.nodup, ?_⟩
    intro field symbol s
    rw [hkeeps.mem_iff, and_comm, List.mem_map]
    simp only [keyOf, Prod.mk.injEq]

end ScorePortfolio.Market
