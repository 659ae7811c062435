import Cat.Lib.BigEndian
import Cat.Lib.BoundedSets
import Cat.Lib.FiniteMaps
import Cat.Lib.Ieee754
import Cat.Lib.Lists
import Cat.Lib.Lru
import Cat.Lib.LruRecency
import Cat.Lib.Memo
import Cat.Lib.Base64
import Cat.Lib.Outcome
import Cat.Lib.Cbor.Item
import Cat.Lib.Cbor.Read
import Cat.Lib.Cbor.Value
import Cat.Lib.Cbor.Codec
import Cat.Error
import Cat.Claims
import Cat.Host
import Cat.Cwt.Limits
import Cat.Cwt.LimitsBuilder
import Cat.Cwt.Values
import Cat.Cwt.Decode
import Cat.Cwt.Encode
import Cat.Cwt.Peek
import Cat.Cwt.Skip
import Cat.Cwt.PeekWalk
import Cat.Cwt.PeekBounds
import Cat.Cwt.PeekSpec
import Cat.Cwt.DecodeSpec
import Cat.Cwt.EncodeSpec
import Cat.Cwt.PeekEncoded
import Cat.Crypto
import Cat.KeyResolver
import Cat.Pipeline
import Cat.Token.Decoder
import Cat.Token.IssuerBinding
import Cat.Uri
import Cat.Token.Enforce
import Cat.Lib.CheckedInt
import Cat.Token.Validator
import Cat.Jwk
import Cat.Lib.Hex
import Cat.Dpop.Proof
import Cat.Dpop.Wire
import Cat.Dpop.JtiStore
import Cat.Dpop.Validator
import Cat.Moqt.Request
import Cat.Moqt.Authorize
import Cat.Moqt.Async
import Cat.Token.EnforceSpec
import Cat.Moqt.AuthorizeSpec
import Cat.Moqt.Mediation
import Cat.Moqt.FailsClosed
import Cat.Moqt.ProofBinding
import Cat.Lib.Runs
import Cat.Dpop.Replay
import Cat.Moqt.Admission
import Cat.Moqt.AsyncAgrees
import Cat.Moqt.Confirmation
import Cat.ClaimSets
import Cat.Moqt.Knowledge
import Cat.Moqt.RelaySettings
import Cat.Moqt.OwnClaims
import Cat.Moqt.CompositeRequests
import Cat.Moqt.TokenSettings
import Cat.Lib.Cbor.Maps
import Cat.Cwt.Ordering
import Cat.Cwt.MapKeys
import Cat.Lib.Cbor.Normal
import Cat.Lib.FloatInt
import Cat.Cwt.Sets
import Cat.Cwt.Counting
import Cat.Cwt.Forms
import Cat.Cwt.NumberForms
import Cat.Cwt.RecordForms
import Cat.Cwt.Fields
import Cat.Cwt.Members
import Cat.Cwt.Ranges
import Cat.Cwt.EncodedKeys
import Cat.Cwt.Acceptance
import Cat.Dpop.CwtDecode
import Cat.Lib.Ascii
import Cat.Dpop.Names
import Cat.Dpop.Build
import Cat.Dpop.JwtDecode
import Cat.Dpop.CwtRoundTrip
import Cat.Lib.Cbor.Size
import Cat.Dpop.Separation
import Cat.Dpop.JwtRoundTrip
import Cat.Dpop.WireForms
import Cat.Dpop.Honest
import Cat.Moqt.HonestClient
import Cat.Moqt.InjectiveAgreement
import Cat.Moqt.Issuance
import Cat.Token.Composites
import Cat.Cwt.Networks
import Cat.Cwt.Costs
import Cat.Cwt.Written
import Cat.Moqt.ScopesRead
import Cat.Moqt.Accounting
import Cat.Moqt.Serial
import Cat.Moqt.StrictSets
import Cat.Moqt.LruAgrees
import Cat.Token.KeyRotation
import Cat.Token.CatporMemory
import Cat.Token.CompiledPatterns
import Cat.Token.LooserLimits
import Cat.Cwt.CustomFrame
import Cat.Cwt.WrittenForms
import Cat.Cwt.Requests
import Cat.Token.Issue
import Cat.Token.FlatTokens
import Cat.Encrypt
import Cat.Token.EncryptedDecoder
import Cat.Lib.Cbor.Writable
import Cat.Token.ScalarSets
import Cat.Token.NestedTokens
import Cat.Token.CompositeTruth
import Cat.Dpop.CanonicalNames
import Cat.Lib.Splitting
import Cat.Moqt.ResourceUri
import Cat.Uri.Paths
import Cat.Uri.Pieces
import Cat.Uri.Normal
import Cat.Uri.Delimiting
import Cat.Uri.Recomposition
import Cat.Uri.Respelling
import Cat.Token.RespelledUris
import Cat.Token.KeysOnce
import Cat.Token.HeaderRules
import Cat.Dpop.StrictRuns
import Cat.Moqt.StrictStores
import Cat.Moqt.ScopeMatchers
import Cat.Dpop.LruJtiStore
import Cat.Dpop.LruCapacity
import Cat.Token.TimeWindow
import Cat.Token.ValidatorSettings
import Cat.Token.Rejection
import Cat.Dpop.CommitKey
import Cat.Dpop.CanonicalText
import Cat.Dpop.KeyThumbprints
import Cat.Dpop.SignedBytes
import Cat.Lib.Cbor.KeyOrder
import Cat.Cwt.KeyOrder
import Cat.Token.Depth
import Cat.Token.IpPrefix
import Cat.Uri.DotSegments
import Cat.Token.StripToken
import Cat.Uri.Trie
import Cat.Uri.TrieNodes
import Cat.Uri.TrieRuns
import Cat.Lib.Utf8Pieces
import Cat.Uri.Matchers
import Cat.Uri.QpRuns
import Cat.Token.PosixEre
import Cat.Lib.StructuredFields.Parse
import Cat.Lib.StructuredFields.Write
import Cat.Lib.StructuredFields.Fuel
import Cat.Lib.StructuredFields.Lists
import Cat.StructuredHeader
import Cat.Dpop.Origins
import Cat.Lib.Raises
import Cat.ErrorText
import Cat.Response
import Cat.Moqt.RefusalLog
import Cat.Lib.HttpFields
import Cat.Lib.HttpCache
import Cat.Moqt.ScopeBuilder
import Cat.Moqt.Offloaded
