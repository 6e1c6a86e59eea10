import OmniRoute.AccountSemaphore.Ledger
import OmniRoute.AccountSemaphore.Progress
import OmniRoute.AdaptivePlan.Escalation
import OmniRoute.Admission.Bypass
import OmniRoute.Admission.QueueLaws
import OmniRoute.Admission.Shadow
import OmniRoute.Admission.Stranding
import OmniRoute.Admission.Utilization
import OmniRoute.BodyAdapter.Compaction
import OmniRoute.BudgetWindows.Window
import OmniRoute.CcrMarkers.Sampling
import OmniRoute.CcrStore.Durability
import OmniRoute.CircuitBreaker.Backoff
import OmniRoute.ClaudeRequest.Paired
import OmniRoute.ClaudeRequest.ThinkingBudget
import OmniRoute.ClaudeResponse.Usage
import OmniRoute.ClaudeStream.Chunking
import OmniRoute.Combos.Bounded
import OmniRoute.Combos.Compatibility
import OmniRoute.Combos.Lossless
import OmniRoute.Combos.Protected
import OmniRoute.ContextManager.Outcome
import OmniRoute.CursorWire.Fields
import OmniRoute.GeminiStream.Chunking
import OmniRoute.JsonWalk.Hash
import OmniRoute.LiveZone.Reuse
import OmniRoute.LoginLockout.Exact
import OmniRoute.ModelLockout.Holding
import OmniRoute.ModelLockout.Streaks
import OmniRoute.NamespaceTools.Invert
import OmniRoute.OllamaStream.Complete
import OmniRoute.QuotaCache.Scopes
import OmniRoute.QuotaGroups.Isolation
import OmniRoute.QuotaShare.Selection
import OmniRoute.QuotaStore.FairShare
import OmniRoute.QuotaStore.WindowLaws
import OmniRoute.RateLimit.Capacity
import OmniRoute.RateLimit.Pause
import OmniRoute.RateLimit.WindowExact
import OmniRoute.RequestDedup.Hash
import OmniRoute.SchemaRefs.LocalRefs
import OmniRoute.SessionDedup.Lossless
import OmniRoute.ShuffleDeck.Rounds
import OmniRoute.Spend.Counting
import OmniRoute.Spend.Flushing
import OmniRoute.ThinkTags.Extract
import OmniRoute.TokenLimits.Exactness
import OmniRoute.TokenRefresh.CasGuard
import OmniRoute.TokenRefresh.LaneProgress
import OmniRoute.ToolArguments.Deltas
import OmniRoute.ToolPairing.CallIds
import OmniRoute.ToolPairing.KeptResults
