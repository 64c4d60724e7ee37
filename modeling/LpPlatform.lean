import LpPlatform.ActionExpiry
import LpPlatform.ActionLifecycle
import LpPlatform.AdminAuth
import LpPlatform.AdminGuards
import LpPlatform.AdminLogout
import LpPlatform.AdminSessions
import LpPlatform.AdminUsers
import LpPlatform.AloneRuns
import LpPlatform.Amounts
import LpPlatform.ApiEnvelopes
import LpPlatform.AppendOnlyTables
import LpPlatform.ApprovalQueue
import LpPlatform.ApprovalWatcher
import LpPlatform.ApprovalsController
import LpPlatform.Attribution
import LpPlatform.AuditExport
import LpPlatform.AuditInterceptor
import LpPlatform.AuditedTransactions
import LpPlatform.Base64
import LpPlatform.BinaryDoubles
import LpPlatform.BrokerPortal
import LpPlatform.BrokersAdmin
import LpPlatform.CanonicalJson
import LpPlatform.ChainCommitment
import LpPlatform.ChainVerifier
import LpPlatform.ChargeBills
import LpPlatform.Charges
import LpPlatform.CloseLegs
import LpPlatform.CommissionLedger
import LpPlatform.CookieJar
import LpPlatform.CurrencyCaps
import LpPlatform.DatabaseRoles
import LpPlatform.DecimalExpressions
import LpPlatform.DecimalRounding
import LpPlatform.DecimalText
import LpPlatform.DepositsAdmin
import LpPlatform.DirectAndQueued
import LpPlatform.Encryption
import LpPlatform.FourEyes
import LpPlatform.GuardSoundness
import LpPlatform.HashChain
import LpPlatform.HmacGuard
import LpPlatform.HmacSignatures
import LpPlatform.InstantText
import LpPlatform.InterferenceLogic
import LpPlatform.IssuedKeys
import LpPlatform.JsValues
import LpPlatform.JsonDiff
import LpPlatform.JsonHosts
import LpPlatform.JsonTexts
import LpPlatform.KeysetPages
import LpPlatform.LastSuperAdmin
import LpPlatform.Ledger
import LpPlatform.LedgerTotals
import LpPlatform.ListPages
import LpPlatform.LiveFeed
import LpPlatform.LostOrders
import LpPlatform.MarkupTexts
import LpPlatform.MessageHub
import LpPlatform.MoneyArithmetic
import LpPlatform.MoneyFormat
import LpPlatform.OperationsDashboard
import LpPlatform.OperatorTrades
import LpPlatform.OrderFills
import LpPlatform.OrderIntake
import LpPlatform.OrderProgress
import LpPlatform.OrderProtocol
import LpPlatform.OrderReplies
import LpPlatform.OrderWorker
import LpPlatform.PageProfit
import LpPlatform.PaiseRoundTrips
import LpPlatform.PendingActions
import LpPlatform.PortalReads
import LpPlatform.PositionLimits
import LpPlatform.PositiveDecimals
import LpPlatform.PositiveEntries
import LpPlatform.PrintedReports
import LpPlatform.RateChanges
import LpPlatform.ReadIsolation
import LpPlatform.RealizedProfit
import LpPlatform.RecordChains
import LpPlatform.RecoveryCodes
import LpPlatform.RegularTexts
import LpPlatform.RepeatedFills
import LpPlatform.RepeatedOrders
import LpPlatform.RiskService
import LpPlatform.RowStore
import LpPlatform.ScriptFacts
import LpPlatform.SessionCookies
import LpPlatform.SessionReplays
import LpPlatform.SessionTrails
import LpPlatform.Sessions
import LpPlatform.SolidTrees
import LpPlatform.StableSorts
import LpPlatform.StatementProgram
import LpPlatform.StatementWrites
import LpPlatform.StepRuns
import LpPlatform.StuckActions
import LpPlatform.SuspendedLogins
import LpPlatform.TablePages
import LpPlatform.Tables
import LpPlatform.TradeChain
import LpPlatform.TradePages
import LpPlatform.TradesList
import LpPlatform.VerifierAgreement
import LpPlatform.WalletAdjust
import LpPlatform.WalletsUnique
import LpPlatform.WithdrawalFloor
