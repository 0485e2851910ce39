import Cossack.Core.RpcRequests
import Cossack.Core.OptimisticAuthority
import Cossack.Core.OptimisticFolds
import Cossack.Core.StateFrames
import Cossack.Core.FormContainment
import Cossack.Core.FormControl
import Cossack.Core.PropertyValidation
import Cossack.Core.StoreTracking
import Cossack.Core.JobSafety
import Cossack.Core.NotificationSafety
import Cossack.Core.WorkflowControl
import Cossack.Core.RpcStreamChunks
import Cossack.Core.RpcCall
import Cossack.Core.SocketRefinement
import Cossack.Core.SocketOrder
import Cossack.Core.RateLimitQuotas
import Cossack.Core.JobAgreement
import Cossack.Core.NotificationAgreement
import Cossack.Core.UrlRoundTrip
import Cossack.Core.ServiceDisposal
import Cossack.Core.StorageAccess
import Cossack.Core.TransferExactness
import Cossack.Core.LocaleChoice
import Cossack.Core.HostedComponent
import Cossack.Auth.OAuthTokens
import Cossack.Database.MigrationConvergence
import Cossack.Database.PlanUse
import Cossack.Database.PlanAgreement
import Cossack.Database.SchemaCompleteness
import Cossack.Database.SchemaHints
import Cossack.Database.JsonWhere
import Cossack.Database.SqlPlaceholders
import Cossack.Database.StaleSaves
import Cossack.Database.SqliteDriver
import Cossack.Database.NestedTransactions
import Cossack.Database.RelationAgreement
import Cossack.Framework.RouteSpecificity
import Cossack.Framework.RealtimeScope
import Cossack.Framework.RouteMatching
import Cossack.Framework.SessionInterleaving
import Cossack.Framework.SseSlot
import Cossack.Framework.SseDelivery
import Cossack.Framework.CacheHistory
import Cossack.Framework.ExpiryRuns
import Cossack.Framework.RpcStreamRoundTrip
import Cossack.Framework.FlashClaims
import Cossack.NodeAdapter.StorageAtomicity
import Cossack.Renderer.HtmlPartition
import Cossack.Renderer.TemplateRoles
import Cossack.Renderer.StyleCounts
import Cossack.Renderer.KeyedLists
import Cossack.Studio.Introspection
